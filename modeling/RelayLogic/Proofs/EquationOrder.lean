import Mathlib
import RelayLogic.Proofs.Safety
import RelayLogic.Proofs.StatementGrammar
import RelayLogic.Proofs.TextGrowth

/-! The order in which equations are written. A program keeps its equations by their variables, and
its code takes them in the order of the declarations. The numbers of the nodes do depend on the order
of reading, but only the failures of trees that are not regular tell them, and trees that are read are
regular. So equations may be written in any order. -/
namespace RelayLogic

/-! Code without numbers. -/

mutual

theorem Group.emit_unnumbered (e : Expression) (regular : e.isRegular = true) (levels : Nat) :
    e.unnumbered.emit levels = e.emit levels :=
  match e, levels with
  | ⟨_, _, _, _, _⟩, 0 => rfl
  | ⟨id, operator, terms, _, _⟩, levels + 1 => by
    simp only [Group.isRegular, Bool.and_eq_true] at regular
    have length : (Term.unnumberedList terms).length = terms.length := by
      rw [Term.unnumberedList_eq_map, List.length_map]
    simp only [Group.unnumbered, Group.emit, length, regular.1, if_true]
    exact Term.emitList_unnumbered terms regular.2 0 id none operator.joint? levels
termination_by structural e

theorem Term.emit_unnumbered (t : Term) (regular : t.isRegular = true) (id id' levels : Nat) :
    t.unnumbered.emit id levels = t.emit id' levels :=
  match t with
  | .empty _ => by cases regular
  | .leaf _ _ => rfl
  | .group inverted g =>
    congrArg (·.andThen (.logicIf inverted .not)) (g.emit_unnumbered regular levels)
termination_by structural t

theorem Term.emitList_unnumbered (ts : List Term) (regular : Term.areRegular ts = true)
    (id id' : Nat) (joint later : Option Instruction) (levels : Nat) :
    Term.emitList (Term.unnumberedList ts) id joint later levels =
      Term.emitList ts id' joint later levels :=
  match ts with
  | [] => rfl
  | t :: rest => by
    simp only [Term.areRegular, Bool.and_eq_true] at regular
    simp only [Term.unnumberedList, Term.emitList, t.emit_unnumbered regular.1 id id',
      Term.emitList_unnumbered rest regular.2 id id']
termination_by structural ts

end

theorem Group.codeFor_unnumbered {e : Expression} (regular : e.isRegular = true) (v : Variable) :
    e.unnumbered.codeFor v = e.codeFor v := by
  have assigned : e.unnumbered.assignment = e.assignment := by
    rcases e with ⟨_, _, _, _, _⟩
    rfl
  rw [codeFor, codeFor, code, code, e.emit_unnumbered regular, assigned]

namespace Program

variable {p q : Program}

/-- The program with number zero at every node. -/
def unnumbered (p : Program) : Program :=
  { p with equations := p.equations.map fun entry => (entry.1, entry.2.unnumbered), lastId := 0 }

theorem equation?_unnumbered (p : Program) (v : Variable) :
    p.unnumbered.equation? v = (p.equation? v).map Group.unnumbered := by
  rw [equation?, unnumbered, List.find?_map, equation?, Option.map_map, Option.map_map]
  rfl

theorem code_unnumbered (h : p.Accepted) : p.unnumbered.code = p.code := by
  have listed : p.unnumbered.inOrder = p.inOrder.map fun entry => (entry.1, entry.2.unnumbered) := by
    rw [inOrder, inOrder, List.map_filterMap]
    refine congrArg (List.filterMap · p.symbols.declared) (funext fun v => ?_)
    rw [equation?_unnumbered, Option.map_map, Option.map_map]
    rfl
  rw [code, code, listed, List.map_map]
  refine congrArg (fun es => (Emission.concat es).toExcept) (List.map_congr_left ?_)
  intro entry member
  exact Group.codeFor_unnumbered (h.proper entry (h.mem_inOrder_iff.1 member)).regular entry.1

theorem code_of_perm (distinct : (p.equations.map Prod.fst).Nodup) (same : q.symbols = p.symbols)
    (permuted : q.equations.Perm p.equations) : q.code = p.code := by
  have distinct' : (q.equations.map Prod.fst).Nodup := (permuted.map Prod.fst).nodup_iff.2 distinct
  have found : ∀ v, q.equation? v = p.equation? v := by
    intro v
    apply Option.ext
    intro e
    rw [equation?_eq_some_of_nodup distinct, equation?_eq_some_of_nodup distinct',
      permuted.mem_iff]
  have listed : q.inOrder = p.inOrder := by
    rw [inOrder, inOrder, same]
    exact congrArg (List.filterMap · _) (funext fun v => by rw [found])
  rw [code, code, listed]

end Program

namespace Statement

/-- What a program has of a statement, without numbers. -/
def entry (d : Statement) : Variable × Expression :=
  (d.target, { d.phrase.tree with assignment := d.assignment, owner := some d.target })

theorem Makes.entry_eq {d : Statement} {equation : Variable × Expression} (h : d.Makes equation) :
    (equation.1, equation.2.unnumbered) = d.entry := by
  obtain ⟨e, tree, rfl⟩ := h
  rw [entry, ← tree]
  rcases e with ⟨_, _, _, _, _⟩
  rfl

theorem map_unnumbered {ds : List Statement} {equations : List (Variable × Expression)}
    (made : List.Forall₂ Makes ds equations) :
    (equations.map fun entry => (entry.1, entry.2.unnumbered)) = ds.map entry := by
  induction made with
  | nil => rfl
  | cons first _ ih => rw [List.map_cons, List.map_cons, ih, first.entry_eq]

theorem map_target {ds : List Statement} {equations : List (Variable × Expression)}
    (made : List.Forall₂ Makes ds equations) : equations.map Prod.fst = ds.map target := by
  have same := congrArg (List.map Prod.fst) (map_unnumbered made)
  rwa [List.map_map, List.map_map] at same

end Statement

/-- Programs of the same statements in another order have the same code. -/
theorem Program.code_of_statements {p q : Program} (accepted : p.Accepted) (accepted' : q.Accepted)
    (same : q.symbols = p.symbols) {ds ds' : List Statement} (permuted : ds'.Perm ds)
    (made : List.Forall₂ Statement.Makes ds p.equations)
    (made' : List.Forall₂ Statement.Makes ds' q.equations) : q.code = p.code := by
  have distinct : (p.unnumbered.equations.map Prod.fst).Nodup := by
    have kept : p.unnumbered.equations.map Prod.fst = p.equations.map Prod.fst := List.map_map
    rw [kept]
    exact accepted.distinct
  have equations : q.unnumbered.equations.Perm p.unnumbered.equations := by
    have here : p.unnumbered.equations = ds.map Statement.entry := Statement.map_unnumbered made
    have there : q.unnumbered.equations = ds'.map Statement.entry := Statement.map_unnumbered made'
    rw [here, there]
    exact permuted.map Statement.entry
  calc q.code = q.unnumbered.code := (code_unnumbered accepted').symm
    _ = p.unnumbered.code := code_of_perm distinct same equations
    _ = p.code := code_unnumbered accepted

/-- A passage of a text: read alone it has these words, it begins with something else than a line
feed, and it ends outside a comment. -/
structure Passage (name text : String) (words : List Token) : Prop where
  said : (Source.ofString name text).HasWords words
  starts : ∃ c cs, text.toList = c :: cs ∧ c ≠ '\n'
  clear : endsInComment text = false

theorem EquationWords.last {words : List Token} (h : EquationWords words) :
    ∀ t ∈ words.getLast?, t = .char ';' := by
  cases h with
  | @upTo name body =>
      intro t final
      rw [← List.cons_append, List.getLast?_concat] at final
      exact (Option.some.inj final).symm

namespace Source

/-- Passages with equations, one behind the other and behind a text, have their words behind those of
the text. -/
theorem hasWords_join {name text : String} {words : List Token}
    (said : (ofString name text).HasWords words) (clear : endsInComment text = false)
    (last : ∀ t ∈ words.getLast?, t = .char ';') {texts : List String}
    {chunks : List (List Token)} (passages : List.Forall₂ (Passage name) texts chunks)
    (each : ∀ words ∈ chunks, EquationWords words) :
    (ofString name (text ++ String.join texts)).HasWords (words ++ chunks.flatten) := by
  induction passages generalizing text words with
  | nil =>
      rw [List.flatten_nil, List.append_nil, String.join_nil, String.append_empty]
      exact said
  | @cons text' words' texts chunks first _ ih =>
      obtain ⟨equation, others⟩ := List.forall_mem_cons.1 each
      obtain ⟨c, cs, begins, noFeed⟩ := first.starts
      have behind := ih first.said first.clear equation.last others
      rw [String.join_cons, List.flatten_cons]
      refine hasWords_append said clear last ?_ ?_ (hasWords_ofString.1 behind)
      · simp [begins]
      · intro d member
        rw [String.toList_append, begins, List.cons_append, List.head?_cons] at member
        rwa [← Option.some.inj member]

/-- Equations may be written in any order: where sections and equations make up a text that is
accepted, every text of the same sections and the same equations in another order is accepted, and
compiles to the same operations or fails with the same error. In particular this holds of the text
that is put together from passages with these words. -/
theorem code_of_permuted {s : Source} {heading : List Token} {symbols : SymbolTable}
    (sections : Sections .empty heading symbols) {chunks chunks' : List (List Token)}
    (each : ∀ words ∈ chunks, EquationWords words) (permuted : chunks'.Perm chunks)
    (said : s.HasWords (heading ++ chunks.flatten)) {p : Program} (read : s.program = .ok p) :
    (∀ s' : Source, s'.HasWords (heading ++ chunks'.flatten) →
      ∃ q, s'.program = .ok q ∧ q.code = p.code) ∧
      ∀ name declarations texts, (ofString name declarations).HasWords heading →
        endsInComment declarations = false → List.Forall₂ (Passage name) texts chunks' →
          ∃ q, (ofString name (declarations ++ String.join texts)).program = .ok q ∧
            q.code = p.code := by
  have anyLayout : ∀ s' : Source, s'.HasWords (heading ++ chunks'.flatten) →
      ∃ q, s'.program = .ok q ∧ q.code = p.code := by
    intro s' said'
    have accepted := accepted_program read
    obtain ⟨ds, rfl, fits, declared, made⟩ := statements_of_program sections each said read
    have cut : Relation.Comp (fun us vs => us = vs.map Statement.words) List.Perm chunks' ds := by
      rw [List.eq_map_comp_perm]
      exact permuted
    obtain ⟨ds', rfl, permuted'⟩ := cut
    have fits' : ∀ d ∈ ds', d.Fits symbols := fun d member => fits d (permuted'.mem_iff.1 member)
    have distinct : (ds'.map Statement.target).Nodup := by
      rw [(permuted'.map Statement.target).nodup_iff, ← Statement.map_target made]
      exact accepted.distinct
    rw [← List.flatMap_def] at said'
    obtain ⟨q, read', same, made'⟩ := program_of_statements sections fits' distinct said'
    exact ⟨q, read', Program.code_of_statements accepted (accepted_program read')
      (same.trans declared.symm) permuted' made made'⟩
  refine ⟨anyLayout, fun name declarations texts declares clear passages => anyLayout _ ?_⟩
  have each' : ∀ words ∈ chunks', EquationWords words :=
    fun words member => each words (permuted.mem_iff.1 member)
  exact hasWords_join declares clear sections.last passages each'

end Source

/-- The words of sections that declare an input and two flags. -/
def switchingHeading : List Token :=
  [.ident "inputs", .char ':', .ident "a", .assignment .assign, .integer 0 "0", .char ';',
    .ident "flags", .char ':', .ident "f", .assignment .assign, .integer 0 "0", .char ',',
    .ident "g", .assignment .assign, .integer 1 "1", .char ';']

def switchingSymbols : SymbolTable :=
  ⟨[.plain "a" .input 0, .plain "f" .flag 0, .plain "g" .flag 1], by decide⟩

theorem sections_switchingHeading : Sections .empty switchingHeading switchingSymbols := by
  have zero : (0 : UInt64).toNat < indexLimit := by decide
  have one : (1 : UInt64).toNat < indexLimit := by decide
  have a : Declaration .input (.plain "a" .input 0)
      [.ident "a", .assignment .assign, .integer 0 "0"] := .plain zero
  have f : Declaration .flag (.plain "f" .flag 0)
      [.ident "f", .assignment .assign, .integer 0 "0"] := .plain zero
  have g : Declaration .flag (.plain "g" .flag 1)
      [.ident "g", .assignment .assign, .integer 1 "1"] := .plain one
  exact .cons (by decide) (.last a rfl) (.cons (by decide) (.more f rfl (.last g rfl)) (.nil _))

def inverseWords : List Token :=
  [.ident "f", .assignment .assign, .char '!', .ident "a", .char ';']

def copyWords : List Token := [.ident "g", .assignment .set, .ident "f", .char ';']

def switchingText : Source :=
  .ofString "switching" "inputs: a=0; flags: f=0, g=1; f = !a; g += f;"

def switching : Program :=
  let a := Variable.plain "a" .input 0
  let f := Variable.plain "f" .flag 0
  let g := Variable.plain "g" .flag 1
  ⟨switchingSymbols,
    [(f, ⟨1, .none, [.leaf true a], some f, .assign⟩),
      (g, ⟨2, .none, [.leaf false f], some g, .set⟩)], 2⟩

set_option maxRecDepth 4000 in
theorem program_switchingText : switchingText.program = .ok switching := by cbv

set_option maxRecDepth 4000 in
theorem hasWords_switchingText :
    switchingText.HasWords (switchingHeading ++ [inverseWords, copyWords].flatten) :=
  ⟨by cbv, ⟨⟨1, 45⟩, ⟨1, 46⟩⟩, by cbv⟩

def switchingCode : List Operation :=
  [⟨.readInput, 0⟩, .logic .not, ⟨.writeFlag, 0⟩, ⟨.readFlag, 0⟩, ⟨.setFlag, 1⟩]

set_option maxRecDepth 4000 in
/-- The second equation comes first, with a comment behind it, and its code still comes last. -/
theorem code_of_permuted_switchingText :
    let permuted := [copyWords, inverseWords]
    Sections .empty switchingHeading switchingSymbols ∧
      (∀ words ∈ [inverseWords, copyWords], EquationWords words) ∧
      permuted.Perm [inverseWords, copyWords] ∧
      switchingText.HasWords (switchingHeading ++ [inverseWords, copyWords].flatten) ∧
      switchingText.program = .ok switching ∧ switching.code = .ok switchingCode ∧
      ∃ q, (Source.ofString "switched" ("inputs: a=0; flags: f=0, g=1; " ++
          String.join ["g += f; // copied\n", "f = !a;"])).program = .ok q ∧
        q.code = .ok switchingCode := by
  intro permuted
  have inverse : EquationWords
      (.ident "f" :: ([.assignment .assign, .char '!', .ident "a"] ++ [.char ';'])) :=
    .upTo (by decide) (by decide)
  have copy : EquationWords (.ident "g" :: ([.assignment .set, .ident "f"] ++ [.char ';'])) :=
    .upTo (by decide) (by decide)
  have each : ∀ words ∈ [inverseWords, copyWords], EquationWords words :=
    List.forall_mem_cons.2 ⟨inverse, List.forall_mem_singleton.2 copy⟩
  have swapped : permuted.Perm [inverseWords, copyWords] := .swap ..
  have declares : (Source.ofString "switched" "inputs: a=0; flags: f=0, g=1; ").HasWords
      switchingHeading := ⟨by cbv, ⟨⟨1, 29⟩, ⟨1, 30⟩⟩, by cbv⟩
  have copied : Passage "switched" "g += f; // copied\n" copyWords :=
    ⟨⟨by cbv, ⟨⟨1, 7⟩, ⟨1, 8⟩⟩, by cbv⟩, ⟨'g', _, rfl, by decide⟩, by decide⟩
  have inverted : Passage "switched" "f = !a;" inverseWords :=
    ⟨⟨by cbv, ⟨⟨1, 7⟩, ⟨1, 8⟩⟩, by cbv⟩, ⟨'f', _, rfl, by decide⟩, by decide⟩
  obtain ⟨-, assembled⟩ := Source.code_of_permuted sections_switchingHeading each swapped
    hasWords_switchingText program_switchingText
  exact ⟨sections_switchingHeading, each, swapped, hasWords_switchingText, program_switchingText,
    rfl, assembled _ _ _ declares (by decide) (.cons copied (.cons inverted .nil))⟩

end RelayLogic
