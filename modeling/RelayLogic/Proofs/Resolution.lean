import RelayLogic.Proofs.Value

/-! Resolving keeps meaning. Where every variable has the value of its equation, a reference and
the copy of the equation that takes its place have the same value, so it does not matter which
references are replaced and which are left because they were visited before. -/
namespace RelayLogic

theorem Group.value_pullUp (s : Variable → Bool) (e : Expression) :
    e.pullUp.value s = e.value s := by
  unfold pullUp
  split
  · rename_i g operator terms
    rw [Group.value_eq, e.value_eq, operator, terms]
    simp only [List.map_cons, List.map_nil, Operator.join_singleton, Term.value, Bool.false_xor,
      Group.value_eq]
  · rfl

theorem Group.pullUp_root (e : Expression) :
    e.pullUp.id = e.id ∧ e.pullUp.owner = e.owner ∧ e.pullUp.assignment = e.assignment := by
  unfold pullUp
  split <;> exact ⟨rfl, rfl, rfl⟩

namespace Resolution

theorem bind_eq_ok {α β : Type} {x : Resolution α} {f : α → Resolution β} {b : β} {l k : Ledger} :
    (x >>= f) l = (.ok b, k) ↔ ∃ a l', x l = (.ok a, l') ∧ f a l' = (.ok b, k) := by
  rw [bind_apply]
  rcases x l with ⟨e | a, l'⟩
  · simp
  · constructor
    · exact fun h => ⟨a, l', rfl, h⟩
    · rintro ⟨_, _, same, h⟩
      cases same
      exact h

theorem bind_eq_error {α β : Type} {x : Resolution α} {f : α → Resolution β} {e : SemanticError}
    {l k : Ledger} :
    (x >>= f) l = (.error e, k) ↔
      x l = (.error e, k) ∨ ∃ a l', x l = (.ok a, l') ∧ f a l' = (.error e, k) := by
  rw [bind_apply]
  rcases x l with ⟨e' | a, l'⟩
  · simp
  · constructor
    · exact fun h => .inr ⟨a, l', rfl, h⟩
    · rintro (same | ⟨_, _, same, h⟩)
      · cases same
      · cases same
        exact h

theorem pure_eq_ok {α : Type} {a b : α} {l k : Ledger} :
    (pure a : Resolution α) l = (.ok b, k) ↔ b = a ∧ k = l := by
  rw [pure_apply, Prod.mk.injEq, Except.ok.injEq, eq_comm, eq_comm (a := l)]

end Resolution

def Ledger.visited (l : Ledger) (name : String) : Ledger := { l with visits := name :: l.visits }

/-- What follows a visit sees the number of earlier visits and this one. -/
theorem Resolution.visit_bind {α : Type} (name : String) (f : Nat → Resolution α) (l : Ledger) :
    (visit name >>= f) l = f (l.visits.count name + 1) (l.visited name) := by
  simp only [bind_apply, visit, List.count_cons_self, Ledger.visited]

namespace Program

variable {p : Program} {expand : List Variable → Expression → Resolution Expression}
  {path : List Variable} {l k : Ledger}

/-- What a term may become. A reference is left at any visit but the first, and gives way to a copy
of its equation at that. -/
theorem expandTerm_eq_ok {t u : Term} :
    p.expandTerm expand path t l = (.ok u, k) ↔
      match t with
      | .empty inverted => u = .empty inverted ∧ k = l
      | .group inverted g => ∃ g', expand path g l = (.ok g', k) ∧ u = .group inverted g'
      | .leaf inverted v =>
        match p.equation? v with
        | none => u = .leaf inverted v ∧ k = l
        | some equation =>
          v ∉ path ∧
            if v.name ∈ l.visits then u = .leaf inverted v ∧ k = l.visited v.name
            else
              ∃ copy l' g, copyFor v equation (l.visited v.name) = (.ok copy, l') ∧
                expand (v :: path) copy l' = (.ok g, k) ∧ u = .group inverted g := by
  cases t with
  | empty inverted => exact Resolution.pure_eq_ok
  | group inverted g =>
      simp only [expandTerm, Resolution.bind_eq_ok, Resolution.pure_eq_ok]
      constructor
      · rintro ⟨g', _, inner, rfl, rfl⟩
        exact ⟨g', inner, rfl⟩
      · rintro ⟨g', inner, rfl⟩
        exact ⟨g', k, inner, rfl, rfl⟩
  | leaf inverted v =>
      simp only [expandTerm]
      cases p.equation? v with
      | none => exact Resolution.pure_eq_ok
      | some equation =>
          simp only
          split
          · rename_i opened
            simp [Resolution.fail, opened]
          · rename_i closed
            rw [Resolution.visit_bind, and_iff_right closed]
            by_cases seen : v.name ∈ l.visits
            · have again : l.visits.count v.name + 1 > 1 :=
                Nat.succ_lt_succ (List.count_pos_iff.2 seen)
              rw [if_pos again, if_pos seen, Resolution.pure_eq_ok]
            · have first : ¬l.visits.count v.name + 1 > 1 := by
                rw [List.count_eq_zero_of_not_mem seen]
                exact Nat.lt_irrefl 1
              rw [if_neg first, if_neg seen]
              simp only [Resolution.bind_eq_ok, Resolution.pure_eq_ok]
              constructor
              · rintro ⟨copy, l', copied, g, _, inner, rfl, rfl⟩
                exact ⟨copy, l', g, copied, inner, rfl⟩
              · rintro ⟨copy, l', g, copied, inner, rfl⟩
                exact ⟨copy, l', copied, g, k, inner, rfl, rfl⟩

theorem expandTerms_cons_eq_ok {t : Term} {ts us : List Term} :
    p.expandTerms expand path (t :: ts) l = (.ok us, k) ↔
      ∃ u l' rest, p.expandTerm expand path t l = (.ok u, l') ∧
        p.expandTerms expand path ts l' = (.ok rest, k) ∧ us = u :: rest := by
  simp only [expandTerms, Resolution.bind_eq_ok, Resolution.pure_eq_ok]
  constructor
  · rintro ⟨u, l', first, rest, _, others, rfl, rfl⟩
    exact ⟨u, l', rest, first, others, rfl⟩
  · rintro ⟨u, l', rest, first, others, rfl⟩
    exact ⟨u, l', first, rest, k, others, rfl, rfl⟩

theorem expand_eq_ok {root : Variable} {levels : Nat} {e t : Expression} :
    p.expand root levels path e l = (.ok t, k) ↔
      ∃ inner terms, levels = inner + 1 ∧
        p.expandTerms (p.expand root inner) path e.terms l = (.ok terms, k) ∧
        t = { e with terms } := by
  cases levels with
  | zero => simp [expand, Resolution.fail]
  | succ inner =>
      simp only [expand, Resolution.bind_eq_ok, Resolution.pure_eq_ok]
      constructor
      · rintro ⟨terms, _, walked, rfl, rfl⟩
        exact ⟨inner, terms, rfl, walked, rfl⟩
      · rintro ⟨_, terms, same, walked, rfl⟩
        cases same
        exact ⟨terms, k, walked, rfl, rfl⟩

theorem copyFor_of_lone {v : Variable} {equation : Expression} {t : Term}
    (lone : equation.terms = [t]) :
    copyFor v equation =
      pure ⟨equation.id, if v.category = .monoflop then .timer else .none, [t], some v,
        .assign⟩ := by
  simp only [copyFor, lone]

theorem copyFor_of_group {v : Variable} {equation : Expression}
    (several : ∀ t, equation.terms ≠ [t]) :
    copyFor v equation =
      if v.category = .monoflop then do
        let id ← Resolution.nextId
        return ⟨id, .timer, [.group false { equation with owner := some v, assignment := .assign }],
          some v, .assign⟩
      else return { equation with owner := some v, assignment := .assign } := by
  unfold copyFor
  split
  · rename_i t lone
    exact absurd lone (several t)
  · rfl

theorem value_of_copyFor {v : Variable} {equation copy : Expression} (s : Variable → Bool)
    (copied : copyFor v equation l = (.ok copy, k)) : copy.value s = equation.value s := by
  by_cases lone : ∃ t, equation.terms = [t]
  · obtain ⟨t, lone⟩ := lone
    rw [copyFor_of_lone lone] at copied
    obtain ⟨rfl, -⟩ := Resolution.pure_eq_ok.1 copied
    rw [Group.value_eq, equation.value_eq, lone]
    simp only [List.map_cons, List.map_nil, Operator.join_singleton]
  · rw [copyFor_of_group (not_exists.1 lone)] at copied
    split at copied
    · obtain ⟨id, l', -, wrapped⟩ := Resolution.bind_eq_ok.1 copied
      obtain ⟨rfl, -⟩ := Resolution.pure_eq_ok.1 wrapped
      rw [Group.value_eq]
      simp only [List.map_cons, List.map_nil, Operator.join_singleton, Term.value, Bool.false_xor,
        Group.value_eq]
    · obtain ⟨rfl, -⟩ := Resolution.pure_eq_ok.1 copied
      rw [Group.value_eq, Group.value_eq]

/-- A copy has the variables of its equation, and making it is no visit. -/
theorem leaves_of_copyFor {v : Variable} {equation copy : Expression}
    (copied : copyFor v equation l = (.ok copy, k)) :
    copy.leaves = equation.leaves ∧ k.visits = l.visits := by
  by_cases lone : ∃ t, equation.terms = [t]
  · obtain ⟨t, lone⟩ := lone
    rw [copyFor_of_lone lone] at copied
    obtain ⟨rfl, rfl⟩ := Resolution.pure_eq_ok.1 copied
    rw [equation.leaves_eq, lone]
    exact ⟨rfl, rfl⟩
  · rw [copyFor_of_group (not_exists.1 lone)] at copied
    split at copied
    · obtain ⟨id, l', numbered, wrapped⟩ := Resolution.bind_eq_ok.1 copied
      obtain ⟨rfl, rfl⟩ := Resolution.pure_eq_ok.1 wrapped
      cases numbered
      rw [equation.leaves_eq]
      exact ⟨List.append_nil _, rfl⟩
    · obtain ⟨rfl, rfl⟩ := Resolution.pure_eq_ok.1 copied
      rw [equation.leaves_eq]
      exact ⟨rfl, rfl⟩

/-- A copy can always be made. -/
theorem exists_copyFor (v : Variable) (equation : Expression) (l : Ledger) :
    ∃ copy k, copyFor v equation l = (.ok copy, k) := by
  by_cases lone : ∃ t, equation.terms = [t]
  · obtain ⟨t, lone⟩ := lone
    rw [copyFor_of_lone lone]
    exact ⟨_, _, rfl⟩
  · rw [copyFor_of_group (not_exists.1 lone)]
    split
    · exact ⟨_, _, rfl⟩
    · exact ⟨_, _, rfl⟩

/-- How a term may fail: a reference whose equation is open closes a cycle, and one at its first
visit fails as the copy of its equation does. -/
theorem expandTerm_eq_error {t : Term} {f : SemanticError} :
    p.expandTerm expand path t l = (.error f, k) ↔
      match t with
      | .empty _ => False
      | .group _ g => expand path g l = (.error f, k)
      | .leaf _ v =>
        ∃ equation, p.equation? v = some equation ∧
          if v ∈ path then f = .cyclicDependency v.name ∧ k = l
          else
            v.name ∉ l.visits ∧ ∃ copy l', copyFor v equation (l.visited v.name) = (.ok copy, l') ∧
              expand (v :: path) copy l' = (.error f, k) := by
  cases t with
  | empty inverted => simp [expandTerm, Resolution.pure_apply]
  | group inverted g => simp [expandTerm, Resolution.bind_eq_error, Resolution.pure_apply]
  | leaf inverted v =>
      simp only [expandTerm]
      cases p.equation? v with
      | none => simp [Resolution.pure_apply]
      | some equation =>
          simp only [Option.some.injEq, exists_eq_left']
          split
          · simp only [Resolution.fail, Prod.mk.injEq, Except.error.injEq, eq_comm]
          · rw [Resolution.visit_bind]
            by_cases seen : v.name ∈ l.visits
            · have again : l.visits.count v.name + 1 > 1 :=
                Nat.succ_lt_succ (List.count_pos_iff.2 seen)
              simp [again, seen, Resolution.pure_apply]
            · have first : ¬l.visits.count v.name + 1 > 1 := by
                rw [List.count_eq_zero_of_not_mem seen]
                exact Nat.lt_irrefl 1
              obtain ⟨copy, l', copied⟩ := exists_copyFor v equation (l.visited v.name)
              rw [if_neg first, and_iff_right seen]
              simp [Resolution.bind_eq_error, Resolution.pure_apply, copied]

theorem exists_of_expandTerms_eq_error {ts : List Term} {f : SemanticError}
    (failed : p.expandTerms expand path ts l = (.error f, k)) :
    ∃ t ∈ ts, ∃ l', p.expandTerm expand path t l' = (.error f, k) := by
  induction ts generalizing l with
  | nil => cases failed
  | cons t ts ih =>
      rcases Resolution.bind_eq_error.1 failed with first | ⟨u, l', -, later⟩
      · exact ⟨t, List.mem_cons_self, l, first⟩
      · rcases Resolution.bind_eq_error.1 later with failed | ⟨rest, l'', -, ended⟩
        · obtain ⟨u, member, h⟩ := ih failed
          exact ⟨u, List.mem_cons_of_mem t member, h⟩
        · cases ended

theorem expand_eq_error {root : Variable} {levels : Nat} {e : Expression} {f : SemanticError} :
    p.expand root levels path e l = (.error f, k) ↔
      (levels = 0 ∧ f = .nestingTooDeep root.name ∧ k = l) ∨
        ∃ inner, levels = inner + 1 ∧
          p.expandTerms (p.expand root inner) path e.terms l = (.error f, k) := by
  cases levels with
  | zero => simp [expand, Resolution.fail, eq_comm]
  | succ inner => simp [expand, Resolution.bind_eq_error, Resolution.pure_apply]

section

variable {s : Variable → Bool}

/-- Replacing a reference keeps its value, if replacing keeps the value of expressions. -/
theorem value_of_expandTerm (consistent : ∀ v e, p.equation? v = some e → s v = e.value s)
    (keeps : ∀ {path e t l k}, expand path e l = (.ok t, k) → t.value s = e.value s)
    {t u : Term} (expanded : p.expandTerm expand path t l = (.ok u, k)) :
    u.value s = t.value s := by
  have h := expandTerm_eq_ok.1 expanded
  cases t with
  | empty inverted => rw [h.1]
  | group inverted g =>
      obtain ⟨g', inner, rfl⟩ := h
      simp only [Term.value, keeps inner]
  | leaf inverted v =>
      cases found : p.equation? v with
      | none =>
          simp only [found] at h
          rw [h.1]
      | some equation =>
          simp only [found] at h
          obtain ⟨-, h⟩ := h
          split at h
          · rw [h.1]
          · obtain ⟨copy, l', g, copied, inner, rfl⟩ := h
            simp only [Term.value, keeps inner, value_of_copyFor s copied,
              consistent v equation found]

theorem values_of_expandTerms
    (each : ∀ {t u l k}, p.expandTerm expand path t l = (.ok u, k) → u.value s = t.value s)
    {ts us : List Term} (expanded : p.expandTerms expand path ts l = (.ok us, k)) :
    us.map (Term.value s) = ts.map (Term.value s) := by
  induction ts generalizing us l with
  | nil =>
      obtain ⟨rfl, -⟩ := Resolution.pure_eq_ok.1 expanded
      rfl
  | cons t ts ih =>
      obtain ⟨u, l', rest, first, others, rfl⟩ := expandTerms_cons_eq_ok.1 expanded
      rw [List.map_cons, List.map_cons, each first, ih others]

theorem value_of_expand (consistent : ∀ v e, p.equation? v = some e → s v = e.value s)
    {root : Variable} {levels : Nat} {e t : Expression}
    (expanded : p.expand root levels path e l = (.ok t, k)) : t.value s = e.value s := by
  induction levels generalizing path e t l k with
  | zero => cases expanded
  | succ inner ih =>
      obtain ⟨_, terms, same, walked, rfl⟩ := expand_eq_ok.1 expanded
      cases same
      rw [Group.value_eq, Group.value_eq,
        values_of_expandTerms (value_of_expandTerm consistent ih) walked]

end

/-- What a resolved name is: its equation with the references replaced, and then pulled up. -/
theorem resolve_eq_ok {name : String} {t : Expression} :
    p.resolve name l = (.ok t, k) ↔
      ∃ v equation e, p.symbols.find? name = some v ∧ p.equation? v = some equation ∧
        p.expand v maxLevels [v] equation l = (.ok e, k) ∧ t = e.pullUp := by
  unfold resolve SymbolTable.lookup
  cases p.symbols.find? name with
  | none => simp [Resolution.fail]
  | some v =>
      cases found : p.equation? v with
      | none => simp [Resolution.fail, found]
      | some equation =>
          simp only [found, Resolution.bind_eq_ok, Resolution.pure_eq_ok]
          constructor
          · rintro ⟨e, _, expanded, rfl, rfl⟩
            exact ⟨v, equation, e, rfl, found, expanded, rfl⟩
          · rintro ⟨v, equation, e, same, found', expanded, rfl⟩
            cases same
            cases found.symm.trans found'
            exact ⟨e, k, expanded, rfl, rfl⟩

theorem resolve_eq_error {name : String} {f : SemanticError} :
    p.resolve name l = (.error f, k) ↔
      match p.symbols.find? name with
      | none => f = .unknownVariable name ∧ k = l
      | some v =>
        match p.equation? v with
        | none => f = .missingEquation v.name ∧ k = l
        | some equation => p.expand v maxLevels [v] equation l = (.error f, k) := by
  unfold resolve SymbolTable.lookup
  cases p.symbols.find? name with
  | none => simp [Resolution.fail, eq_comm]
  | some v =>
      cases found : p.equation? v with
      | none => simp [Resolution.fail, found, eq_comm]
      | some equation => simp [found, Resolution.bind_eq_error, Resolution.pure_apply]

/-- A resolved name has the value of its equation wherever every variable that is defined has the
value of its own equation, whatever was visited before. It stays the equation of its variable. -/
theorem value_resolve {name : String} {equation t : Expression} {s : Variable → Bool}
    (consistent : ∀ v e, p.equation? v = some e → s v = e.value s)
    (defined : p.equationOf name = .ok equation) (resolved : p.resolve name l = (.ok t, k)) :
    t.value s = equation.value s ∧ t.id = equation.id ∧ t.owner = equation.owner ∧
      t.assignment = equation.assignment := by
  obtain ⟨v, equation', e, declared, found, expanded, rfl⟩ := resolve_eq_ok.1 resolved
  obtain rfl : equation' = equation := by
    simpa [equationOf, SymbolTable.lookup, declared, found, bind, Except.bind, pure,
      Except.pure] using defined
  obtain ⟨id, owner, assignment⟩ := e.pullUp_root
  obtain ⟨_, terms, -, -, rfl⟩ := expand_eq_ok.1 expanded
  exact ⟨by rw [Group.value_pullUp, value_of_expand consistent expanded], id, owner, assignment⟩

/-- The program of `f = !a; t += f | a; out = t & !f;`, where `t` is a monoflop. -/
def sharing : Program :=
  let a := Variable.plain "a" .input 0
  let f := Variable.plain "f" .flag 0
  let t := Variable.plain "t" .monoflop 0
  let out := Variable.plain "out" .output 0
  ⟨⟨[a, f, t, out], by decide⟩,
    [(f, ⟨1, .none, [.leaf true a], some f, .assign⟩),
      (t, ⟨2, .or, [.leaf false f, .leaf false a], some t, .set⟩),
      (out, ⟨3, .and, [.leaf false t, .leaf true f], some out, .assign⟩)], 3⟩

/-- What `out` resolves to. The second reference to `f` is left, and the monoflop has a timer. -/
def sharedTree : Expression :=
  let a := Variable.plain "a" .input 0
  let f := Variable.plain "f" .flag 0
  let t := Variable.plain "t" .monoflop 0
  ⟨3, .and,
    [.group false ⟨4, .timer,
        [.group false ⟨2, .or, [.group false ⟨1, .none, [.leaf true a], some f, .assign⟩,
          .leaf false a], some t, .assign⟩], some t, .assign⟩,
      .leaf true f], some (Variable.plain "out" .output 0), .assign⟩

/-- Where `f` and `t` are on and the others off, each variable has the value of its equation, and
so has the resolved tree. -/
theorem value_sharedTree :
    let s := fun v : Variable => decide (v.name = "f" ∨ v.name = "t")
    let equation : Expression :=
      ⟨3, .and, [.leaf false (.plain "t" .monoflop 0), .leaf true (.plain "f" .flag 0)],
        some (.plain "out" .output 0), .assign⟩
    (∀ v e, sharing.equation? v = some e → s v = e.value s) ∧
      sharing.equationOf "out" = .ok equation ∧
      sharing.resolve "out" sharing.ledger = (.ok sharedTree, ⟨["f", "f", "t"], 4⟩) ∧
      sharedTree.value s = equation.value s ∧ equation.value s = false := by
  intro s equation
  have consistent : ∀ v e, sharing.equation? v = some e → s v = e.value s := by
    intro v e found
    have member := mem_of_equation? found
    simp only [sharing, List.mem_cons, Prod.mk.injEq, List.not_mem_nil, or_false] at member
    rcases member with ⟨rfl, rfl⟩ | ⟨rfl, rfl⟩ | ⟨rfl, rfl⟩ <;> rfl
  have defined : sharing.equationOf "out" = .ok equation := rfl
  have resolved : sharing.resolve "out" sharing.ledger =
      (.ok sharedTree, ⟨["f", "f", "t"], 4⟩) := rfl
  exact ⟨consistent, defined, resolved, (value_resolve consistent defined resolved).1, rfl⟩

end Program

end RelayLogic
