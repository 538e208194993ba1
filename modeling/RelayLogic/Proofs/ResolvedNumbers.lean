import RelayLogic.Proofs.Numbering
import RelayLogic.Proofs.SharedVisits

/-! The numbers of resolved trees. A tree that is resolved has the nodes of its own equation, those of
the equations that were opened for it, each of which was opened once and never its own, and a node
with a new number for each timer that was put around several terms. So no number occurs twice, and
since the numbers go on from call to call, whether a call fails or not, no two calls give out the
same. All this is said of counters of 32 bits too, as long as none of them runs over. -/
namespace RelayLogic

namespace Ledger

variable {l k : Ledger}

/-- `l.Onward k`: the ledger `k` has all visits of `l`, and no fewer numbers were given out. -/
structure Onward (l k : Ledger) : Prop where
  visits : l.visits.Sublist k.visits
  lastId : l.lastId ≤ k.lastId

theorem Onward.refl (l : Ledger) : l.Onward l := ⟨.refl _, Nat.le_refl _⟩

theorem admits_onward (kind : String → Prop) : Admits kind Onward where
  refl := Onward.refl
  trans h h' := ⟨h.visits.trans h'.visits, Nat.le_trans h.lastId h'.lastId⟩
  visit l name _ := ⟨List.sublist_cons_self name l.visits, Nat.le_refl _⟩
  nextId l := ⟨.refl _, Nat.le_succ l.lastId⟩

/-- If counters hold a ledger, they held all ledgers before it. -/
theorem Fits.of_onward (fits : k.Fits) (h : l.Onward k) : l.Fits where
  visits name := Nat.lt_of_le_of_lt (h.visits.count_le name) (fits.visits name)
  lastId := Nat.lt_of_le_of_lt h.lastId fits.lastId

end Ledger

/-- A root that takes over the terms of its only group loses the number of that group. -/
theorem Group.numbers_pullUp (e : Expression) : e.pullUp.numbers.Sublist e.numbers := by
  unfold pullUp
  split
  · rename_i g operator terms
    rw [Group.numbers_eq, e.numbers_eq, terms, Term.numbersOfList_cons, Term.numbers_group,
      g.numbers_eq]
    exact .cons_cons _ (.cons _ (List.sublist_append_left _ _))
  · exact List.Sublist.refl _

namespace Program

variable {p : Program} {l l' k : Ledger}

/-- Resolving a name takes nothing back from the ledger, whether it fails or not. -/
theorem onward_resolve (p : Program) (name : String) (l : Ledger) :
    l.Onward (p.resolve name l).2 := by
  cases declared : p.symbols.find? name with
  | none =>
      have unknown : p.symbols.lookup name = .error (.unknownVariable name) := by
        simp only [SymbolTable.lookup, declared]
      simp only [resolve, unknown]
      exact .refl l
  | some root => exact moves_resolve (Ledger.admits_onward _) declared l

/-- The numbers of the nodes of a variable's equation. -/
def numbersOf (p : Program) (v : Variable) : List Nat :=
  ((p.equation? v).map Group.numbers).getD []

theorem numbersOf_eq {v : Variable} {e : Expression} (found : p.equation? v = some e) :
    p.numbersOf v = e.numbers := by
  rw [numbersOf, found]
  rfl

/-- What an expansion opened, and which numbers it gave out: equations whose variables were neither
open nor visited before, each of them once, and the numbers between two ledgers. -/
structure Opens (p : Program) (path : List Variable) (l : Ledger) (opened : List Variable)
    (new : List Nat) (k : Ledger) : Prop where
  defined : ∀ v ∈ opened, p.equation? v ≠ none
  apart : ∀ v ∈ opened, v ∉ path
  unseen : ∀ v ∈ opened, v.name ∉ l.visits
  seen : ∀ v ∈ opened, v.name ∈ k.visits
  distinct : opened.Nodup
  visits : l.visits ⊆ k.visits
  new : Numbers l.lastId k.lastId new

namespace Opens

variable {path opened opened' : List Variable} {new new' : List Nat} {v : Variable}

theorem nil (l : Ledger) : p.Opens path l [] [] l :=
  ⟨nofun, nofun, nofun, nofun, .nil, List.Subset.refl _, .nil l.lastId⟩

theorem append (h : p.Opens path l opened new l') (h' : p.Opens path l' opened' new' k) :
    p.Opens path l (opened ++ opened') (new ++ new') k where
  defined := List.forall_mem_append.2 ⟨h.defined, h'.defined⟩
  apart := List.forall_mem_append.2 ⟨h.apart, h'.apart⟩
  unseen := List.forall_mem_append.2
    ⟨h.unseen, fun v member before => h'.unseen v member (h.visits before)⟩
  seen := List.forall_mem_append.2 ⟨fun v member => h'.visits (h.seen v member), h'.seen⟩
  distinct := List.nodup_append'.2
    ⟨h.distinct, h'.distinct, fun v here there => h'.unseen v there (h.seen v here)⟩
  visits := List.Subset.trans h.visits h'.visits
  new := h.new.append h'.new

/-- One more visit before it changes nothing. -/
theorem after_visit (h : p.Opens path (l.visited v.name) opened new k) :
    p.Opens path l opened new k :=
  { h with
    unseen := fun w member => List.not_mem_of_not_mem_cons (h.unseen w member)
    visits := List.Subset.trans (List.subset_cons_self _ _) h.visits }

/-- What is opened while the equation of a variable is open, and that equation. -/
theorem opening (defined : p.equation? v ≠ none) (closed : v ∉ path) (unseen : v.name ∉ l.visits)
    (visited : l'.visits = (l.visited v.name).visits) (first : Numbers l.lastId l'.lastId new)
    (h : p.Opens (v :: path) l' opened new' k) :
    p.Opens path l (v :: opened) (new ++ new') k := by
  have sub : v.name :: l.visits ⊆ k.visits := by
    have := h.visits
    rwa [visited] at this
  refine ⟨List.forall_mem_cons.2 ⟨defined, h.defined⟩, List.forall_mem_cons.2 ⟨closed, ?_⟩,
    List.forall_mem_cons.2 ⟨unseen, ?_⟩, List.forall_mem_cons.2 ⟨sub List.mem_cons_self, h.seen⟩,
    List.nodup_cons.2 ⟨?_, h.distinct⟩, List.Subset.trans (List.subset_cons_self _ _) sub,
    first.append h.new⟩
  · intro w member
    exact List.not_mem_of_not_mem_cons (h.apart w member)
  · intro w member
    have later := h.unseen w member
    rw [visited] at later
    exact List.not_mem_of_not_mem_cons later
  · intro member
    exact h.apart v member List.mem_cons_self

end Opens

/-- A copy has the numbers of its equation, and a new one if it is wrapped. -/
theorem numbers_of_copyFor {v : Variable} {equation copy : Expression}
    (copied : copyFor v equation l = (.ok copy, k)) :
    ∃ new, Numbers l.lastId k.lastId new ∧ copy.numbers = new ++ equation.numbers := by
  by_cases lone : ∃ t, equation.terms = [t]
  · obtain ⟨t, lone⟩ := lone
    rw [copyFor_of_lone lone] at copied
    obtain ⟨rfl, rfl⟩ := Resolution.pure_eq_ok.1 copied
    refine ⟨[], .nil _, ?_⟩
    rw [List.nil_append, equation.numbers_eq, lone, Group.numbers_eq]
  · rw [copyFor_of_group (not_exists.1 lone)] at copied
    split at copied
    · obtain ⟨id, l', numbered, wrapped⟩ := Resolution.bind_eq_ok.1 copied
      obtain ⟨rfl, rfl⟩ := Resolution.pure_eq_ok.1 wrapped
      cases numbered
      refine ⟨[l.lastId + 1], .next _, ?_⟩
      rw [Group.numbers_eq, Term.numbersOfList_cons, Term.numbers_group, Group.numbers_eq,
        equation.numbers_eq]
      simp [Term.numbersOfList]
    · obtain ⟨rfl, rfl⟩ := Resolution.pure_eq_ok.1 copied
      refine ⟨[], .nil _, ?_⟩
      rw [List.nil_append, Group.numbers_eq, equation.numbers_eq]

/-- The nodes of expanded terms are those of the terms, those of the equations that were opened, and
those with new numbers. -/
theorem Expands.numbers {levels : Nat} {path : List Variable} {ts us : List Term}
    (h : p.Expands levels path ts l us k) :
    ∃ opened new, p.Opens path l opened new k ∧
      (Term.numbersOfList us).Perm
        (Term.numbersOfList ts ++ (opened.flatMap p.numbersOf ++ new)) := by
  induction h with
  | done => exact ⟨[], [], .nil _, .of_eq rfl⟩
  | empty _ later => exact later
  | @group _ _ inverted g _ us terms _ _ _ _ _ inside later =>
      obtain ⟨opened, new, opens, same⟩ := inside
      obtain ⟨opened', new', opens', same'⟩ := later
      refine ⟨opened ++ opened', new ++ new', opens.append opens', ?_⟩
      rw [Term.numbersOfList_cons, Term.numbersOfList_cons, Term.numbers_group, Term.numbers_group,
        Group.numbers_eq, g.numbers_eq, List.flatMap_append]
      rw [List.perm_iff_count] at same same' ⊢
      intro n
      have here := same n
      have there := same' n
      simp only [List.count_append, List.count_cons] at here there ⊢
      omega
  | free _ _ later =>
      obtain ⟨opened, new, opens, same⟩ := later
      exact ⟨opened, new, opens, same⟩
  | again _ _ _ _ later =>
      obtain ⟨opened, new, opens, same⟩ := later
      exact ⟨opened, new, opens.after_visit, same⟩
  | @first _ _ inverted v equation copy ts us terms _ _ _ _ found closed unseen copied _ _ inside
      later =>
      obtain ⟨opened, new, opens, same⟩ := inside
      obtain ⟨opened', new', opens', same'⟩ := later
      obtain ⟨wrapper, first, own⟩ := numbers_of_copyFor copied
      have visited := (leaves_of_copyFor copied).2
      have defined : p.equation? v ≠ none := by simp [found]
      refine ⟨v :: opened ++ opened', wrapper ++ new ++ new',
        (opens.opening defined closed unseen visited first).append opens', ?_⟩
      rw [copy.numbers_eq] at own
      rw [Term.numbersOfList_cons, Term.numbersOfList_cons, Term.numbers_group, Group.numbers_eq,
        List.flatMap_append, List.flatMap_cons, p.numbersOf_eq found]
      rw [List.perm_iff_count] at same same' ⊢
      intro n
      have here := same n
      have there := same' n
      have both := congrArg (List.count n) own
      have leaf : (Term.leaf inverted v).numbers = [] := rfl
      simp only [leaf, List.count_append, List.count_cons, List.count_nil] at here there both ⊢
      omega

theorem mem_numbersOf {v : Variable} {n : Nat} :
    n ∈ p.numbersOf v ↔ ∃ e, p.equation? v = some e ∧ n ∈ e.numbers := by
  unfold numbersOf
  cases p.equation? v <;> simp

theorem numbersOf_subset (p : Program) (v : Variable) : p.numbersOf v ⊆ p.numbers := by
  intro n member
  obtain ⟨e, found, here⟩ := mem_numbersOf.1 member
  exact List.mem_flatMap_of_mem (mem_of_equation? found) here

/-- Where no number occurs twice, different equations share none. -/
theorem disjoint_numbersOf (numbered : p.numbers.Nodup) {v w : Variable} (ne : v ≠ w) :
    (p.numbersOf v).Disjoint (p.numbersOf w) := by
  obtain ⟨-, apart⟩ := List.nodup_flatMap.1 numbered
  have : Std.Symm
      (Function.onFun List.Disjoint fun entry : Variable × Expression => entry.2.numbers) :=
    ⟨fun _ _ disjoint => List.Disjoint.symm disjoint⟩
  intro n here there
  obtain ⟨e, found, mine⟩ := mem_numbersOf.1 here
  obtain ⟨e', found', other⟩ := mem_numbersOf.1 there
  have entries : (v, e) ≠ (w, e') := fun same => ne (congrArg Prod.fst same)
  exact apart.forall (mem_of_equation? found) (mem_of_equation? found') entries mine other

theorem nodup_numbersOf (numbered : p.numbers.Nodup) (v : Variable) : (p.numbersOf v).Nodup := by
  obtain ⟨each, -⟩ := List.nodup_flatMap.1 numbered
  cases found : p.equation? v with
  | none => simp [numbersOf, found]
  | some e =>
      rw [p.numbersOf_eq found]
      exact each (v, e) (mem_of_equation? found)

theorem nodup_flatMap_numbersOf (numbered : p.numbers.Nodup) {opened : List Variable}
    (distinct : opened.Nodup) : (opened.flatMap p.numbersOf).Nodup := by
  refine List.nodup_flatMap.2 ⟨fun v _ => nodup_numbersOf numbered v, ?_⟩
  exact distinct.pairwise_of_forall_ne fun v _ w _ ne => disjoint_numbersOf numbered ne

/-- A tree that is resolved has no number twice, and only those of equations and new ones. -/
theorem numbers_of_resolve (numbered : Numbers 0 p.lastId p.numbers) (later : p.lastId ≤ l.lastId)
    {name : String} {t : Expression} (resolved : p.resolve name l = (.ok t, k)) :
    t.numbers.Nodup ∧ ∀ n ∈ t.numbers, n ∈ p.numbers ∨ l.lastId < n ∧ n ≤ k.lastId := by
  obtain ⟨v, equation, e, -, found, expanded, rfl⟩ := resolve_eq_ok.1 resolved
  obtain ⟨_, terms, -, derived, rfl⟩ := expands_of_expand expanded
  obtain ⟨opened, new, opens, same⟩ := derived.numbers
  -- The equation of the root counts as opened from the start.
  have all : (Group.numbers { equation with terms }).Perm
      ((v :: opened).flatMap p.numbersOf ++ new) := by
    rw [Group.numbers_eq, List.flatMap_cons, p.numbersOf_eq found, equation.numbers_eq,
      List.cons_append, List.cons_append, List.append_assoc]
    exact same.cons equation.id
  have distinct : (v :: opened).Nodup :=
    List.nodup_cons.2 ⟨fun member => opens.apart v member List.mem_cons_self, opens.distinct⟩
  have old : (v :: opened).flatMap p.numbersOf ⊆ p.numbers := by
    intro n member
    obtain ⟨w, -, here⟩ := List.mem_flatMap.1 member
    exact p.numbersOf_subset w here
  have whole : ((v :: opened).flatMap p.numbersOf ++ new).Nodup := by
    refine List.nodup_append'.2
      ⟨nodup_flatMap_numbersOf numbered.nodup distinct, opens.new.nodup, ?_⟩
    intro n here there
    have low := (numbered.mem_iff.1 (old here)).2
    have high := (opens.new.mem_iff.1 there).1
    omega
  refine ⟨(all.nodup_iff.2 whole).sublist (Group.numbers_pullUp _), fun n member => ?_⟩
  have kept := (Group.numbers_pullUp _).subset member
  rcases List.mem_append.1 (all.mem_iff.1 kept) with here | here
  · exact .inl (old here)
  · exact .inr (opens.new.mem_iff.1 here)

end Program

/-- A name to resolve, and the account of visits to go on with: a new one, one that earlier calls
have left behind, or any other. -/
structure Request where
  name : String
  visits : List String

/-- What became of a request, and the ledgers before and after it. -/
structure Answer where
  outcome : Except SemanticError Expression
  before : Ledger
  after : Ledger

/-- The numbers that were given out for a request. -/
def Answer.allotted (a : Answer) : List Nat :=
  List.range' (a.before.lastId + 1) (a.after.lastId - a.before.lastId)

theorem Answer.mem_allotted {a : Answer} {n : Nat} :
    n ∈ a.allotted ↔ a.before.lastId < n ∧ n ≤ a.after.lastId := by
  rw [allotted, List.mem_range'_1]
  omega

/-- The answers to requests, one after another. The numbers go on, also from one that fails. -/
def Program.answers (p : Program) : Nat → List Request → List Answer
  | _, [] => []
  | lastId, request :: rest =>
    let before : Ledger := ⟨request.visits, lastId⟩
    match p.resolve request.name before with
    | (outcome, after) => ⟨outcome, before, after⟩ :: p.answers after.lastId rest

namespace Program

variable {p : Program} {requests : List Request}

theorem le_before_of_answers {lastId : Nat} {a : Answer} (member : a ∈ p.answers lastId requests) :
    lastId ≤ a.before.lastId := by
  induction requests generalizing lastId with
  | nil => cases member
  | cons request rest ih =>
      have on := (p.onward_resolve request.name ⟨request.visits, lastId⟩).lastId
      rcases List.mem_cons.1 member with rfl | later
      · exact Nat.le_refl lastId
      · exact Nat.le_trans on (ih later)

/-- No two requests are given the same number. -/
theorem pairwise_answers (lastId : Nat) :
    (p.answers lastId requests).Pairwise fun a b => a.allotted.Disjoint b.allotted := by
  induction requests generalizing lastId with
  | nil => exact .nil
  | cons request rest ih =>
      refine .cons (fun b later n here there => ?_) (ih _)
      have low := (Answer.mem_allotted.1 here).2
      have high := (Answer.mem_allotted.1 there).1
      have between := le_before_of_answers later
      dsimp only at low
      omega

/-- An answer comes from a resolution that goes on with the numbers given out before. -/
theorem resolve_of_answers {lastId : Nat} {a : Answer} (member : a ∈ p.answers lastId requests) :
    ∃ name, p.resolve name a.before = (a.outcome, a.after) := by
  induction requests generalizing lastId with
  | nil => cases member
  | cons request rest ih =>
      rcases List.mem_cons.1 member with rfl | later
      · exact ⟨request.name, rfl⟩
      · exact ih later

end Program

/-- Numbers name nodes: the nodes of a program that is read have different numbers, and so have those
of every tree that it resolves names to, one request after another. What is new in a tree was given
out for it, and what was given out for one request is given out for no other. All this is as long as
counters of 32 bits hold the ledgers that are left, one after each request; then they have held the
ledgers before as well, and every number in a tree. -/
theorem Source.distinct_numbers {source : Source} {p : Program} (read : source.program = .ok p)
    (room : p.lastId < counterLimit) :
    (p.numbers.Nodup ∧ ∀ n ∈ p.numbers, 1 ≤ n ∧ n ≤ p.lastId) ∧
      ∀ requests, (∀ a ∈ p.answers p.lastId requests, a.after.Fits) →
        ((p.answers p.lastId requests).Pairwise fun a b => a.allotted.Disjoint b.allotted) ∧
          ∀ a ∈ p.answers p.lastId requests, a.before.Fits ∧ p.numbers.Disjoint a.allotted ∧
            ∀ t, a.outcome = .ok t → t.numbers.Nodup ∧
              ∀ n ∈ t.numbers, n < counterLimit ∧ (n ∈ p.numbers ∨ n ∈ a.allotted) := by
  have numbered := Source.numbers_of_program read
  refine ⟨⟨numbered.nodup, fun n member => numbered.mem_iff.1 member⟩, fun requests fits => ?_⟩
  refine ⟨Program.pairwise_answers p.lastId, fun a member => ?_⟩
  have later := Program.le_before_of_answers member
  obtain ⟨name, resolved⟩ := Program.resolve_of_answers member
  refine ⟨?_, ?_, ?_⟩
  · have onward := p.onward_resolve name a.before
    rw [resolved] at onward
    exact (fits a member).of_onward onward
  · intro n old new
    have low := (numbered.mem_iff.1 old).2
    have high := (Answer.mem_allotted.1 new).1
    omega
  · intro t outcome
    rw [outcome] at resolved
    obtain ⟨distinct, each⟩ := Program.numbers_of_resolve numbered later resolved
    refine ⟨distinct, fun n here => ?_⟩
    rcases each n here with old | new
    · exact ⟨Nat.lt_of_le_of_lt (numbered.mem_iff.1 old).2 room, .inl old⟩
    · exact ⟨Nat.lt_of_le_of_lt new.2 (fits a member).lastId, .inr (Answer.mem_allotted.2 new)⟩

/-- A monoflop with two terms, an output that sees it, and a flag that needs itself behind it. -/
def tangledText : Source :=
  .ofString "tangled" ("inputs: a=0, b=1; flags: f=0; monoflops: t=0; outputs: o=0;" ++
    "t = a | b; f = t & f; o = t & a;")

def tangled : Program :=
  let a := Variable.plain "a" .input 0
  let b := Variable.plain "b" .input 1
  let f := Variable.plain "f" .flag 0
  let t := Variable.plain "t" .monoflop 0
  let o := Variable.plain "o" .output 0
  ⟨⟨[a, b, f, t, o], by decide⟩,
    [(t, ⟨1, .or, [.leaf false a, .leaf false b], some t, .assign⟩),
      (f, ⟨2, .and, [.leaf false t, .leaf false f], some f, .assign⟩),
      (o, ⟨3, .and, [.leaf false t, .leaf false a], some o, .assign⟩)], 3⟩

set_option maxRecDepth 4000 in
theorem program_tangledText : tangledText.program = .ok tangled := by cbv

/-- The flag fails after its timer was given the number four. The first tree of the output has
number five for its timer; where the monoflop was visited it has none. -/
theorem distinct_numbers_tangledText :
    let requests : List Request := [⟨"f", []⟩, ⟨"o", []⟩, ⟨"o", ["t", "f"]⟩, ⟨"o", []⟩]
    let answers := tangled.answers tangled.lastId requests
    tangledText.program = .ok tangled ∧ tangled.numbers = [1, 2, 3] ∧
      tangled.lastId < counterLimit ∧ (∀ a ∈ answers, a.after.Fits) ∧
      answers.map Answer.allotted = [[4], [5], [], [6]] ∧
      answers.map (fun a => (a.outcome.map Group.numbers).toOption) =
        [none, some [3, 5, 1], some [3], some [3, 6, 1]] ∧
      (answers.Pairwise fun a b => a.allotted.Disjoint b.allotted) := by
  intro requests answers
  have room : tangled.lastId < counterLimit := by decide
  have fits : ∀ a ∈ answers, a.after.Fits := by
    have small : ∀ a ∈ answers, a.after.visits.length ≤ 3 ∧ a.after.lastId ≤ 6 := by decide
    intro a member
    obtain ⟨short, low⟩ := small a member
    have wide : 6 < counterLimit := by decide
    exact ⟨fun name => Nat.lt_of_le_of_lt (Nat.le_trans List.count_le_length short) (by omega),
      Nat.lt_of_le_of_lt low wide⟩
  obtain ⟨-, run⟩ := Source.distinct_numbers program_tangledText room
  exact ⟨program_tangledText, rfl, room, fits, rfl, rfl, (run requests fits).1⟩

end RelayLogic
