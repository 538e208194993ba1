import RelayLogic.Proofs.Resolution

/-! Expansions that succeed, told by rules. A list of terms is expanded from left to right, and each
rule says what becomes of its first term. What holds of every expansion is proved by induction on
these rules. -/
namespace RelayLogic.Program

/-- Within so many levels, and while the equations of the variables in the path are open, terms
become other terms and a ledger becomes another ledger. -/
inductive Expands (p : Program) :
    Nat → List Variable → List Term → Ledger → List Term → Ledger → Prop where
  | done {levels : Nat} {path : List Variable} {l : Ledger} : p.Expands levels path [] l [] l
  | empty {levels : Nat} {path : List Variable} {inverted : Bool} {ts us : List Term}
      {l k : Ledger} (later : p.Expands levels path ts l us k) :
      p.Expands levels path (.empty inverted :: ts) l (.empty inverted :: us) k
  | group {levels : Nat} {path : List Variable} {inverted : Bool} {g : Expression}
      {ts us terms : List Term} {l l' k : Ledger}
      (inside : p.Expands levels path g.terms l terms l')
      (later : p.Expands (levels + 1) path ts l' us k) :
      p.Expands (levels + 1) path (.group inverted g :: ts) l
        (.group inverted { g with terms } :: us) k
  | free {levels : Nat} {path : List Variable} {inverted : Bool} {v : Variable}
      {ts us : List Term} {l k : Ledger} (undefined : p.equation? v = none)
      (later : p.Expands levels path ts l us k) :
      p.Expands levels path (.leaf inverted v :: ts) l (.leaf inverted v :: us) k
  | again {levels : Nat} {path : List Variable} {inverted : Bool} {v : Variable}
      {equation : Expression} {ts us : List Term} {l k : Ledger}
      (found : p.equation? v = some equation) (closed : v ∉ path) (seen : v.name ∈ l.visits)
      (later : p.Expands levels path ts (l.visited v.name) us k) :
      p.Expands levels path (.leaf inverted v :: ts) l (.leaf inverted v :: us) k
  | first {levels : Nat} {path : List Variable} {inverted : Bool} {v : Variable}
      {equation copy : Expression} {ts us terms : List Term} {l l' l'' k : Ledger}
      (found : p.equation? v = some equation) (closed : v ∉ path) (unseen : v.name ∉ l.visits)
      (copied : copyFor v equation (l.visited v.name) = (.ok copy, l'))
      (inside : p.Expands levels (v :: path) copy.terms l' terms l'')
      (later : p.Expands (levels + 1) path ts l'' us k) :
      p.Expands (levels + 1) path (.leaf inverted v :: ts) l
        (.group inverted { copy with terms } :: us) k

variable {p : Program} {root : Variable} {levels : Nat} {path : List Variable} {l k : Ledger}

theorem expands_of_expandTerms
    (inside : ∀ {path e t l k}, p.expand root levels path e l = (.ok t, k) →
      ∃ below terms, levels = below + 1 ∧ p.Expands below path e.terms l terms k ∧
        t = { e with terms })
    {ts us : List Term} (expanded : p.expandTerms (p.expand root levels) path ts l = (.ok us, k)) :
    p.Expands levels path ts l us k := by
  induction ts generalizing us l with
  | nil =>
      obtain ⟨rfl, rfl⟩ := Resolution.pure_eq_ok.1 expanded
      exact .done
  | cons t ts ih =>
      obtain ⟨u, l', rest, here, others, rfl⟩ := expandTerms_cons_eq_ok.1 expanded
      have later := ih others
      have h := expandTerm_eq_ok.1 here
      cases t with
      | empty inverted =>
          obtain ⟨rfl, rfl⟩ := h
          exact .empty later
      | group inverted g =>
          obtain ⟨_, deeper, rfl⟩ := h
          obtain ⟨below, terms, rfl, derived, rfl⟩ := inside deeper
          exact .group derived later
      | leaf inverted v =>
          cases found : p.equation? v with
          | none =>
              simp only [found] at h
              obtain ⟨rfl, rfl⟩ := h
              exact .free found later
          | some equation =>
              simp only [found] at h
              obtain ⟨closed, h⟩ := h
              split at h
              · rename_i seen
                obtain ⟨rfl, rfl⟩ := h
                exact .again found closed seen later
              · rename_i unseen
                obtain ⟨copy, l'', _, copied, deeper, rfl⟩ := h
                obtain ⟨below, terms, rfl, derived, rfl⟩ := inside deeper
                exact .first found closed unseen copied derived later

/-- An expansion that succeeds is one by the rules, on the terms of the expression. -/
theorem expands_of_expand {e t : Expression}
    (expanded : p.expand root levels path e l = (.ok t, k)) :
    ∃ below terms, levels = below + 1 ∧ p.Expands below path e.terms l terms k ∧
      t = { e with terms } := by
  induction levels generalizing path e t l k with
  | zero => cases expanded
  | succ levels ih =>
      obtain ⟨below, terms, same, walked, rfl⟩ := expand_eq_ok.1 expanded
      cases same
      exact ⟨levels, terms, rfl, expands_of_expandTerms ih walked, rfl⟩

end RelayLogic.Program
