import Mathlib.Data.List.Nodup
import RelayLogic.Proofs.History
import RelayLogic.Symbol.Table
import Std.Data.HashMap.Lemmas

/-! Histories of declarations. A table holds the first variable of each name that it was asked to
declare, in that order, and what it tells of names, places, categories and indices is told of just
these variables. A table that finds names in an index, which it extends with each variable, gives
the same answers: whatever was declared or refused, the index and the variables stay in step. -/
namespace RelayLogic

namespace SymbolTable

variable {t u : SymbolTable} {v : Variable} {name : String} {place index : Nat} {c : Category}

/-- What a declaration is answered: the place of the variable, or why it is refused. If it is, the
table stays as it was. -/
def answer (t : SymbolTable) (v : Variable) : Except SemanticError Nat × SymbolTable :=
  match t.declare v with
  | .error e => (.error e, t)
  | .ok u => (.ok t.size, u)

/-- The variables that were answered with a place, each with that place. -/
def placed (calls : List Variable) (replies : List (Except SemanticError Nat)) :
    List (Variable × Nat) :=
  (calls.zip replies).filterMap fun (v, reply) => reply.toOption.map (v, ·)

/-- What a table tells of its variables fits together. -/
structure Coherent (t : SymbolTable) : Prop where
  distinct : t.names.Nodup
  /-- The place of a name is where the variable of that name stands. -/
  place_iff : ∀ name place,
    t.place? name = some place ↔ ∃ v, t.declared[place]? = some v ∧ v.name = name
  placeless_iff : ∀ name, t.place? name = none ↔ name ∉ t.names
  find : ∀ name, t.find? name = (t.place? name).bind (t.declared[·]?)
  /-- The variables stand at the places counted from zero. -/
  counted : t.declared.map (fun v => t.place? v.name) = (List.range t.size).map some
  /-- The variables of a category are among all variables, in the same order. -/
  ordered : ∀ c, (t.ofCategory c).Sublist t.declared
  category : ∀ c, ∀ v ∈ t.ofCategory c, v.category = c
  /-- The variables of all categories are all variables, each once. -/
  parted : (Category.all.flatMap t.ofCategory).Perm t.declared
  unused_iff : ∀ c, t.maxIndex? c = none ↔ ∀ v ∈ t.declared, v.category ≠ c
  highest_iff : ∀ c index, t.maxIndex? c = some index ↔
    (∃ v ∈ t.declared, v.category = c ∧ v.index = index) ∧
      ∀ v ∈ t.declared, v.category = c → v.index ≤ index

/-- A table has one variable more than another. What is told of other names and places is the
same. -/
structure Gains (t : SymbolTable) (v : Variable) (u : SymbolTable) : Prop where
  declared : u.declared = t.declared ++ [v]
  place : u.place? v.name = some t.size
  names : ∀ name, name ≠ v.name → u.contains name = t.contains name ∧
    u.place? name = t.place? name ∧ u.find? name = t.find? name ∧ u.lookup name = t.lookup name
  places : ∀ place, place ≠ t.size → u.declared[place]? = t.declared[place]?

/-- A declaration is refused because the name is taken, or it adds its variable at the end. -/
theorem answer_cases (t : SymbolTable) (v : Variable) :
    v.name ∈ t.names ∧ t.answer v = (.error (.duplicateVariable v.name), t) ∨
      v.name ∉ t.names ∧ ∃ u, t.answer v = (.ok t.size, u) ∧ u.declared = t.declared ++ [v] := by
  unfold answer declare
  by_cases taken : t.contains v.name
  · rw [dif_pos taken]
    exact .inl ⟨contains_iff.1 taken, rfl⟩
  · rw [dif_neg taken]
    exact .inr ⟨contains_iff.not.1 taken, _, rfl, rfl⟩

theorem place?_eq_none_iff : t.place? name = none ↔ name ∉ t.names := by
  simp [place?, names]

theorem place?_eq_some_iff :
    t.place? name = some place ↔ ∃ v, t.declared[place]? = some v ∧ v.name = name := by
  have apart : t.declared.Pairwise fun v w => v.name ≠ w.name := List.pairwise_map.1 t.distinct
  rw [place?, List.findIdx?_eq_some_iff_getElem]
  constructor
  · rintro ⟨inside, same, -⟩
    exact ⟨_, List.getElem?_eq_getElem inside, of_decide_eq_true same⟩
  · rintro ⟨v, there, rfl⟩
    obtain ⟨inside, rfl⟩ := List.getElem?_eq_some_iff.1 there
    refine ⟨inside, decide_eq_true rfl, fun earlier before same => ?_⟩
    exact List.pairwise_iff_getElem.1 apart earlier place _ inside before (of_decide_eq_true same)

theorem find?_eq_bind (t : SymbolTable) (name : String) :
    t.find? name = (t.place? name).bind (t.declared[·]?) := by
  cases found : t.place? name with
  | none => exact find?_eq_none_iff.2 (place?_eq_none_iff.1 found)
  | some place =>
      obtain ⟨v, there, named⟩ := place?_eq_some_iff.1 found
      rw [Option.bind_some, there]
      exact find?_eq_some_iff.2 ⟨List.mem_of_getElem? there, named⟩

theorem map_place? (t : SymbolTable) :
    t.declared.map (fun v => t.place? v.name) = (List.range t.size).map some := by
  refine List.ext_getElem (by simp [size]) fun place inside _ => ?_
  rw [List.getElem_map, List.getElem_map, List.getElem_range]
  rw [List.length_map] at inside
  exact place?_eq_some_iff.2 ⟨_, List.getElem?_eq_getElem inside, rfl⟩

theorem mem_ofCategory : v ∈ t.ofCategory c ↔ v ∈ t.declared ∧ v.category = c := by
  simp [ofCategory]

theorem perm_flatMap_ofCategory (t : SymbolTable) :
    (Category.all.flatMap t.ofCategory).Perm t.declared := by
  have distinct : t.declared.Nodup := .of_map _ t.distinct
  have apart : (Category.all.flatMap t.ofCategory).Nodup := by
    refine List.nodup_flatMap.2 ⟨fun c _ => distinct.filter _, ?_⟩
    refine List.Pairwise.imp (fun {c d} other v here there => other ?_)
      (show Category.all.Nodup by decide)
    exact (mem_ofCategory.1 here).2.symm.trans (mem_ofCategory.1 there).2
  refine (List.perm_ext_iff_of_nodup apart distinct).2 fun v => ?_
  simp [mem_ofCategory, Category.mem_all]

theorem maxIndex?_eq_none_iff :
    t.maxIndex? c = none ↔ ∀ v ∈ t.declared, v.category ≠ c := by
  simp [maxIndex?, ofCategory]

theorem maxIndex?_eq_some_iff : t.maxIndex? c = some index ↔
    (∃ v ∈ t.declared, v.category = c ∧ v.index = index) ∧
      ∀ v ∈ t.declared, v.category = c → v.index ≤ index := by
  rw [maxIndex?, List.max?_eq_some_iff, List.forall_mem_map]
  simp [mem_ofCategory, and_assoc]

theorem coherent (t : SymbolTable) : t.Coherent where
  distinct := t.distinct
  place_iff _ _ := place?_eq_some_iff
  placeless_iff _ := place?_eq_none_iff
  find := t.find?_eq_bind
  counted := t.map_place?
  ordered _ := List.filter_sublist
  category _ _ member := (mem_ofCategory.1 member).2
  parted := t.perm_flatMap_ofCategory
  unused_iff _ := maxIndex?_eq_none_iff
  highest_iff _ _ := maxIndex?_eq_some_iff

theorem mem_names_of_append (grown : u.declared = t.declared ++ [v]) :
    name ∈ u.names ↔ name ∈ t.names ∨ name = v.name := by
  simp [names, grown]

theorem find?_append (grown : u.declared = t.declared ++ [v]) (other : name ≠ v.name) :
    u.find? name = t.find? name := by
  simp [find?, grown, other.symm]

theorem gains_of_append (grown : u.declared = t.declared ++ [v]) : t.Gains v u where
  declared := grown
  place := place?_eq_some_iff.2 ⟨v, by simp [grown, size], rfl⟩
  names name other := by
    have found := find?_append grown other
    refine ⟨by simp [contains, grown, other.symm], by simp [place?, grown, other.symm], found, ?_⟩
    rw [lookup, lookup, found]
  places place other := by
    rw [grown]
    rcases Nat.lt_or_gt_of_ne other with before | behind
    · exact List.getElem?_append_left before
    · rw [List.getElem?_eq_none (Nat.le_of_lt behind), List.getElem?_eq_none]
      rw [List.length_append]
      exact behind

/-- The variables of a table after declarations, with their places, are those it had before and
those that were placed. -/
theorem zipIdx_history (t : SymbolTable) (calls : List Variable) :
    (history answer t calls).2.declared.zipIdx =
      t.declared.zipIdx ++ placed calls (history answer t calls).1 := by
  induction calls generalizing t with
  | nil => exact (List.append_nil _).symm
  | cons v rest ih =>
      rw [history_cons]
      rcases t.answer_cases v with ⟨-, refused⟩ | ⟨-, u, answered, grown⟩
      · rw [refused]
        exact ih t
      · rw [answered]
        refine (ih u).trans ?_
        rw [grown, List.zipIdx_append, List.append_assoc, Nat.zero_add]
        rfl

/-- Of the variables that declarations name, a table takes those that are the first of a name
which it did not have before. -/
theorem declared_history (t : SymbolTable) (calls : List Variable) :
    (history answer t calls).2.declared =
      t.declared ++ (calls.filter (·.name ∉ t.names)).eraseDupsBy fun v w => v.name = w.name := by
  induction calls generalizing t with
  | nil => exact (List.append_nil _).symm
  | cons v rest ih =>
      rw [history_cons]
      rcases t.answer_cases v with ⟨taken, refused⟩ | ⟨free, u, answered, grown⟩
      · rw [refused, List.filter_cons_of_neg (by simpa using taken)]
        exact ih t
      · -- The name is now taken, so later variables of that name are left out.
        have kept : rest.filter (·.name ∉ u.names) =
            (rest.filter (·.name ∉ t.names)).filter fun w => decide (w.name = v.name) = false := by
          rw [List.filter_filter]
          refine List.filter_congr fun w _ => ?_
          rw [Bool.eq_iff_iff]
          simp [mem_names_of_append grown, and_comm]
        rw [answered, List.filter_cons_of_pos (by simpa using free), List.eraseDupsBy_cons, ← kept]
        refine (ih u).trans ?_
        rw [grown, List.append_assoc, List.singleton_append]

end SymbolTable

/-- A table that keeps its variables in an array, and the place of each name in an index. -/
structure IndexedTable where
  entries : Array Variable
  places : Std.HashMap String Nat

namespace IndexedTable

def empty : IndexedTable := ⟨#[], ∅⟩

def answer (d : IndexedTable) (v : Variable) : Except SemanticError Nat × IndexedTable :=
  if d.places.contains v.name then (.error (.duplicateVariable v.name), d)
  else (.ok d.entries.size, ⟨d.entries.push v, d.places.insert v.name d.entries.size⟩)

/-- Whether an indexed table has the variables of a table, and for each name its place. -/
structure Mirrors (d : IndexedTable) (t : SymbolTable) : Prop where
  entries : d.entries.toList = t.declared
  places : ∀ name, d.places[name]? = t.place? name

variable {d : IndexedTable} {t : SymbolTable}

theorem Mirrors.contains_iff (same : d.Mirrors t) (name : String) :
    d.places.contains name = true ↔ name ∈ t.names := by
  rw [Std.HashMap.contains_eq_isSome_getElem?, same.places, Option.isSome_iff_ne_none, Ne,
    SymbolTable.place?_eq_none_iff, not_not]

theorem mirrors_empty : empty.Mirrors .empty := ⟨rfl, fun _ => Std.HashMap.getElem?_empty⟩

theorem simulates_answer : Simulates answer SymbolTable.answer Mirrors := by
  intro d t v same
  unfold answer
  rcases t.answer_cases v with ⟨taken, refused⟩ | ⟨free, u, answered, grown⟩
  · rw [if_pos ((same.contains_iff v.name).2 taken), refused]
    exact ⟨rfl, same⟩
  · have gains := SymbolTable.gains_of_append grown
    have counted : d.entries.size = t.size := by
      rw [← Array.length_toList, same.entries, SymbolTable.size]
    rw [if_neg ((same.contains_iff v.name).not.2 free), answered, counted]
    refine ⟨rfl, by simp [same.entries, grown], fun name => ?_⟩
    by_cases new : v.name = name
    · subst new
      rw [Std.HashMap.getElem?_insert_self, gains.place]
    · rw [Std.HashMap.getElem?_insert, if_neg (by simpa using new), same.places]
      exact (gains.names name (Ne.symm new)).2.1.symm

end IndexedTable

namespace SymbolTable

/-- After any declarations, a table holds the first variable of each name that was to be declared,
and its places, categories and highest indices are those of just these variables. They are the
variables whose declarations were answered with a place, which is where they stand. The next
declaration is refused if the name is taken, and changes nothing. Otherwise it adds the variable,
and what is told of other names and places stays the same. All this goes for an indexed table as
well: it answers alike, and its index leads to the variables of each name. -/
theorem coherent_of_declarations (calls : List Variable) :
    let replies := (history answer empty calls).1
    let t := (history answer empty calls).2
    t.Coherent ∧
      t.declared = (calls.eraseDupsBy fun v w => v.name = w.name) ∧
      t.declared.zipIdx = placed calls replies ∧
      (∀ v, if v.name ∈ t.names then t.answer v = (.error (.duplicateVariable v.name), t)
        else ∃ u, t.answer v = (.ok t.size, u) ∧ t.Gains v u) ∧
      ∃ d, history IndexedTable.answer .empty calls = (replies, d) ∧ d.Mirrors t := by
  intro replies t
  have declared : t.declared = _ := declared_history empty calls
  have everything : calls.filter (·.name ∉ empty.names) = calls :=
    List.filter_eq_self.2 fun v _ => decide_eq_true List.not_mem_nil
  rw [everything] at declared
  obtain ⟨same, mirrors⟩ := IndexedTable.simulates_answer.history IndexedTable.mirrors_empty calls
  refine ⟨t.coherent, declared, zipIdx_history empty calls, fun v => ?_, _, ?_, mirrors⟩
  · rcases t.answer_cases v with ⟨taken, refused⟩ | ⟨free, u, answered, grown⟩
    · rwa [if_pos taken]
    · rw [if_neg free]
      exact ⟨u, answered, gains_of_append grown⟩
  · exact Prod.ext same rfl

example :
    let a := Variable.plain "a" .input 4
    let f := Variable.plain "f" .flag 0
    (history answer empty [a, f, { a with category := .flag }, { f with name := "F" }]).1 =
      [.ok 0, .ok 1, .error (.duplicateVariable "a"), .ok 2] := by
  rfl

end SymbolTable

end RelayLogic
