import Mathlib
import RelayLogic.Proofs.VisitCounts

/-! How much is copied. What a resolution adds to the leaves of an equation are the leaves of other
equations that it opens, and an equation that was opened is not opened again while the account of
visits lasts. So trees that share an account have no more leaves together than their own equations
have, and once more those of every equation, however deep and however often signals are shared. -/
namespace RelayLogic

/-- The number of leaves of all these trees. -/
def leafTotal (es : List Expression) : Nat := (es.map fun e => e.leaves.length).sum

theorem leafTotal_append (es es' : List Expression) :
    leafTotal (es ++ es') = leafTotal es + leafTotal es' := by
  simp [leafTotal]

theorem leafTotal_cons (e : Expression) (es : List Expression) :
    leafTotal (e :: es) = e.leaves.length + leafTotal es := by
  simp [leafTotal]

theorem leafTotal_le_of_sublist {es es' : List Expression} (h : es.Sublist es') :
    leafTotal es ≤ leafTotal es' :=
  (List.Sublist.map (fun e : Expression => e.leaves.length) h).sum_le_sum fun _ _ => Nat.zero_le _

namespace Ledger

/-- Those of some equations whose variables were not visited: they may still be copied. -/
def unopened (l : Ledger) (entries : List (Variable × Expression)) : List Expression :=
  (entries.filter fun entry => entry.1.name ∉ l.visits).map Prod.snd

theorem unopened_visited (l : Ledger) (name : String) (entries : List (Variable × Expression)) :
    ((l.visited name).unopened entries).Sublist (l.unopened entries) := by
  apply List.Sublist.map
  apply List.monotone_filter_right
  intro entry unseen
  rw [decide_eq_true_eq] at unseen ⊢
  exact List.not_mem_of_not_mem_cons unseen

theorem unopened_append (l : Ledger) (entries entries' : List (Variable × Expression)) :
    l.unopened (entries ++ entries') = l.unopened entries ++ l.unopened entries' := by
  simp [unopened]

/-- Visiting a variable for the first time takes its equation away from those still to be copied. -/
theorem leafTotal_unopened {l : Ledger} {entries : List (Variable × Expression)} {v : Variable}
    {e : Expression} (member : (v, e) ∈ entries) (unseen : v.name ∉ l.visits) :
    e.leaves.length + leafTotal ((l.visited v.name).unopened entries) ≤
      leafTotal (l.unopened entries) := by
  obtain ⟨before, behind, rfl⟩ := List.append_of_mem member
  have here : l.unopened ((v, e) :: behind) = e :: l.unopened behind := by
    simp [unopened, unseen]
  have gone : (l.visited v.name).unopened ((v, e) :: behind) =
      (l.visited v.name).unopened behind := by
    simp [unopened, visited]
  have less := leafTotal_le_of_sublist (l.unopened_visited v.name before)
  have less' := leafTotal_le_of_sublist (l.unopened_visited v.name behind)
  rw [unopened_append, unopened_append, here, gone, leafTotal_append, leafTotal_append,
    leafTotal_cons]
  omega

end Ledger

namespace Program

variable {p : Program} {l k : Ledger}

/-- What an expansion adds to the leaves is paid for by the equations that it opens. -/
theorem Expands.length_leaves_le (closed : p.Closed) {levels : Nat} {path : List Variable}
    {ts us : List Term} (h : p.Expands levels path ts l us k) :
    (Term.leavesOfList us).length + leafTotal (k.unopened p.inOrder) ≤
      (Term.leavesOfList ts).length + leafTotal (l.unopened p.inOrder) := by
  induction h with
  | done => exact Nat.le_refl _
  | empty _ later => exact later
  | @group _ _ _ g _ _ _ _ _ _ _ _ inside later =>
      simp only [Term.leavesOfList, Term.leaves, Group.leaves_eq, List.length_append]
      omega
  | free _ _ later =>
      simp only [Term.leavesOfList, Term.leaves, List.length_append]
      omega
  | @again _ _ _ v _ _ _ l _ _ _ _ _ later =>
      have kept := leafTotal_le_of_sublist (l.unopened_visited v.name p.inOrder)
      simp only [Term.leavesOfList, Term.leaves, List.length_append]
      omega
  | @first _ _ _ v equation copy _ _ _ l l' _ _ found _ unseen copied _ _ inside later =>
      have declared := closed.defined _ (mem_of_equation? found)
      have entry : (v, equation) ∈ p.inOrder := mem_inOrder.2 ⟨declared, found⟩
      have opened := Ledger.leafTotal_unopened entry unseen
      obtain ⟨leaves, visits⟩ := leaves_of_copyFor copied
      have same : l'.unopened p.inOrder = (l.visited v.name).unopened p.inOrder := by
        rw [Ledger.unopened, visits]
        rfl
      rw [← copy.leaves_eq, leaves, same] at inside
      simp only [Term.leavesOfList, Term.leaves, Group.leaves_eq, List.length_append] at later ⊢
      omega

theorem equationOf_eq_ok {name : String} {e : Expression} :
    p.equationOf name = .ok e ↔ ∃ v, p.symbols.find? name = some v ∧ p.equation? v = some e := by
  unfold equationOf SymbolTable.lookup
  cases p.symbols.find? name with
  | none => simp [bind, Except.bind]
  | some v =>
      simp only [bind, Except.bind, Option.some.injEq, exists_eq_left']
      cases p.equation? v <;> simp [pure, Except.pure, throw, throwThe, MonadExceptOf.throw]

/-- One resolution: its leaves are those of the equation, or of equations that it opens. -/
theorem length_leaves_of_resolve (closed : p.Closed) {name : String} {t : Expression}
    (resolved : p.resolve name l = (.ok t, k)) :
    ∃ equation, p.equationOf name = .ok equation ∧
      t.leaves.length + leafTotal (k.unopened p.inOrder) ≤
        equation.leaves.length + leafTotal (l.unopened p.inOrder) := by
  obtain ⟨v, equation, e, declared, found, expanded, rfl⟩ := resolve_eq_ok.1 resolved
  obtain ⟨_, terms, -, derived, rfl⟩ := expands_of_expand expanded
  refine ⟨equation, equationOf_eq_ok.2 ⟨v, declared, found⟩, ?_⟩
  rw [Group.leaves_pullUp, Group.leaves_eq, equation.leaves_eq]
  exact derived.length_leaves_le closed

/-- Resolutions one after another, with one account of visits. -/
theorem leafTotal_of_resolveEach (closed : p.Closed) {names : List String} {ts : List Expression}
    (resolved : p.resolveEach names l = (.ok ts, k)) :
    ∃ equations, List.Forall₂ (fun name e => p.equationOf name = .ok e) names equations ∧
      leafTotal ts + leafTotal (k.unopened p.inOrder) ≤
        leafTotal equations + leafTotal (l.unopened p.inOrder) := by
  induction names generalizing l ts with
  | nil =>
      obtain ⟨rfl, rfl⟩ := Resolution.pure_eq_ok.1 resolved
      exact ⟨[], .nil, Nat.le_refl _⟩
  | cons name names ih =>
      obtain ⟨t, l', first, others⟩ := Resolution.bind_eq_ok.1 resolved
      obtain ⟨rest, k', later, done⟩ := Resolution.bind_eq_ok.1 others
      obtain ⟨rfl, rfl⟩ := Resolution.pure_eq_ok.1 done
      obtain ⟨equation, found, here⟩ := length_leaves_of_resolve closed first
      obtain ⟨equations, defined, there⟩ := ih later
      refine ⟨equation :: equations, .cons found defined, ?_⟩
      rw [leafTotal_cons, leafTotal_cons]
      omega

theorem unopened_of_fresh (lastId : Nat) :
    (⟨[], lastId⟩ : Ledger).unopened p.inOrder = p.inOrder.map Prod.snd := by
  simp [Ledger.unopened]

/-- With a new account of visits, every equation may still be opened once. -/
theorem leafTotal_of_fresh (closed : p.Closed) {lastId : Nat} {names : List String}
    {ts : List Expression} (resolved : p.resolveEach names ⟨[], lastId⟩ = (.ok ts, k)) :
    ∃ equations, List.Forall₂ (fun name e => p.equationOf name = .ok e) names equations ∧
      leafTotal ts ≤ leafTotal equations + leafTotal (p.inOrder.map Prod.snd) := by
  obtain ⟨equations, defined, bound⟩ := leafTotal_of_resolveEach closed resolved
  rw [unopened_of_fresh] at bound
  exact ⟨equations, defined, Nat.le_trans (Nat.le_add_right _ _) bound⟩

/-- Whatever is shared, and however deep: names that are resolved with one new account of visits
have no more leaves together than their equations have, and once more those of every equation. So
resolving all names at most doubles the leaves. -/
theorem leafTotal_resolveEach_le (closed : p.Closed) (lastId : Nat) :
    (∀ names ts k, p.resolveEach names ⟨[], lastId⟩ = (.ok ts, k) →
      ∃ equations, List.Forall₂ (fun name e => p.equationOf name = .ok e) names equations ∧
        leafTotal ts ≤ leafTotal equations + leafTotal (p.inOrder.map Prod.snd)) ∧
      ∀ ts k, p.resolveAll ⟨[], lastId⟩ = (.ok ts, k) →
        leafTotal ts ≤ 2 * leafTotal (p.inOrder.map Prod.snd) := by
  refine ⟨fun names ts k resolved => leafTotal_of_fresh closed resolved, fun ts k resolved => ?_⟩
  obtain ⟨equations, defined, bound⟩ := leafTotal_of_fresh closed resolved
  have own : List.Forall₂ (fun name e => p.equationOf name = .ok e)
      (p.inOrder.map fun entry => entry.1.name) (p.inOrder.map Prod.snd) := by
    rw [List.forall₂_map_left_iff, List.forall₂_map_right_iff, List.forall₂_same]
    intro entry member
    obtain ⟨declared, found⟩ := mem_inOrder.1 member
    exact equationOf_eq_ok.2 ⟨entry.1, SymbolTable.find?_eq_some_iff.2 ⟨declared, rfl⟩, found⟩
  obtain rfl : equations = p.inOrder.map Prod.snd := by
    refine List.right_unique_forall₂' ?_ defined own
    intro name e e' here there
    exact Except.ok.inj (here.symm.trans there)
  omega

/-- The program of `f = a | a; g = f & f; h = g | g; o = h & h;`. Written out in full, `o` has
sixteen leaves. -/
def doubling : Program :=
  let a := Variable.plain "a" .input 0
  let f := Variable.plain "f" .flag 0
  let g := Variable.plain "g" .flag 1
  let h := Variable.plain "h" .flag 2
  let o := Variable.plain "o" .output 0
  ⟨⟨[a, f, g, h, o], by decide⟩,
    [(f, ⟨1, .or, [.leaf false a, .leaf false a], some f, .assign⟩),
      (g, ⟨2, .and, [.leaf false f, .leaf false f], some g, .assign⟩),
      (h, ⟨3, .or, [.leaf false g, .leaf false g], some h, .assign⟩),
      (o, ⟨4, .and, [.leaf false h, .leaf false h], some o, .assign⟩)], 4⟩

/-- Resolving `o` shows every equation once, and after that `g` and `o` show only their own. -/
theorem leafTotal_resolveEach_doubling :
    doubling.Closed ∧ leafTotal (doubling.inOrder.map Prod.snd) = 8 ∧
      (∃ ts k equations, doubling.resolveEach ["o", "g", "o"] ⟨[], 4⟩ = (.ok ts, k) ∧
        List.Forall₂ (fun name e => doubling.equationOf name = .ok e) ["o", "g", "o"]
          equations ∧
        leafTotal ts = 9 ∧ leafTotal ts ≤ leafTotal equations + 8) ∧
      ∃ ts k, doubling.resolveAll ⟨[], 4⟩ = (.ok ts, k) ∧ leafTotal ts = 11 ∧
        leafTotal ts ≤ 2 * 8 := by
  have closed : doubling.Closed := ⟨by decide, by decide⟩
  obtain ⟨each, all⟩ := leafTotal_resolveEach_le closed 4
  obtain ⟨equations, defined, bound⟩ := each ["o", "g", "o"] _ _ rfl
  exact ⟨closed, rfl, ⟨_, _, equations, rfl, defined, rfl, bound⟩, _, _, rfl, rfl, all _ _ rfl⟩

end Program

end RelayLogic
