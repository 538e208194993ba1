import Mathlib
import RelayLogic.Code.Listing
import RelayLogic.Proofs.Evaluation
import RelayLogic.Proofs.ListingGrammar

/-! The code of listings. What a line yields is told by its mnemonic, its argument and its
inversion, and a listing yields what its lines yield, one after another. The categories that a
mnemonic takes are just those that its access has an instruction for, so every listing that can be
read has code. -/
namespace RelayLogic

/-- The operations that invert a value, if it is to be inverted. -/
def inversion (inverted : Bool) : List Operation := if inverted then [.logic .not] else []

/-- The instruction that joins a value to the one below it, or inverts it. -/
inductive Mnemonic.Joins : Mnemonic → Instruction → Prop
  | and : Joins .and .and
  | or : Joins .or .or
  | not : Joins .not .not

inductive Mnemonic.Stores : Mnemonic → Access → Prop
  | write : Stores .write .write
  | set : Stores .set .set
  | reset : Stores .reset .reset

def Assignment.mnemonic : Assignment → Mnemonic
  | assign => .write
  | set => .set
  | reset => .reset

theorem Assignment.stores_mnemonic (a : Assignment) : a.mnemonic.Stores a.access := by
  cases a <;> constructor

/-- `line.Yields ops`: the line stands for these operations. An inversion acts on the argument where
it is read, and on the value held where that is stored. -/
inductive Line.Yields : Line → List Operation → Prop
  | read {v : Variable} {inverted : Bool} {i : Instruction} :
      i.access? = some (.read, v.category) →
      Yields ⟨.read, some v, inverted⟩ (⟨i, v.index⟩ :: inversion inverted)
  | join {m : Mnemonic} {v : Variable} {inverted : Bool} {i joint : Instruction} :
      m.Joins joint → i.access? = some (.read, v.category) →
      Yields ⟨m, some v, inverted⟩ (⟨i, v.index⟩ :: (inversion inverted ++ [.logic joint]))
  | alone {m : Mnemonic} {inverted : Bool} {joint : Instruction} :
      m.Joins joint → Yields ⟨m, none, inverted⟩ [.logic joint]
  | store {m : Mnemonic} {v : Variable} {inverted : Bool} {a : Access} {i : Instruction} :
      m.Stores a → i.access? = some (a, v.category) →
      Yields ⟨m, some v, inverted⟩ (inversion inverted ++ [⟨i, v.index⟩])

theorem Mnemonic.joins_iff {m : Mnemonic} {i : Instruction} : m.Joins i ↔ m.joint? = some i := by
  constructor
  · intro h
    cases h <;> rfl
  · intro h
    cases m <;> cases h <;> constructor

/-- What the language of listings allows is what the machine has an instruction for. -/
theorem Mnemonic.allows_eq (m : Mnemonic) (c : Category) :
    m.allowed.allows c = (Instruction.ofAccess? m.access c).isSome := by
  cases m <;> cases c <;> rfl

namespace Emission

theorem toExcept_andThen_eq_ok {first second : Emission} {ops : List Operation} :
    (first.andThen second).toExcept = .ok ops ↔
      ∃ front back, first.toExcept = .ok front ∧ second.toExcept = .ok back ∧
        ops = front ++ back := by
  simp only [toExcept_eq_ok]
  constructor
  · rintro ⟨clean, rfl⟩
    obtain ⟨worked, worked'⟩ := failure_andThen.1 clean
    exact ⟨_, _, ⟨worked, rfl⟩, ⟨worked', rfl⟩, andThen_operations second worked⟩
  · rintro ⟨_, _, ⟨worked, rfl⟩, ⟨worked', rfl⟩, rfl⟩
    exact ⟨failure_andThen.2 ⟨worked, worked'⟩, andThen_operations second worked⟩

theorem toExcept_access_eq_ok {a : Access} {v : Variable} {ops : List Operation} :
    (access a v).toExcept = .ok ops ↔
      ∃ i : Instruction, i.access? = some (a, v.category) ∧ ops = [⟨i, v.index⟩] := by
  simp only [← Instruction.ofAccess?_eq_some_iff, access]
  cases Instruction.ofAccess? a v.category with
  | none => simp [toExcept, fail]
  | some i => simp [toExcept, one, eq_comm]

theorem toExcept_logicIf_eq_ok {inverted : Bool} {ops : List Operation} :
    (logicIf inverted .not).toExcept = .ok ops ↔ ops = inversion inverted := by
  cases inverted <;> simp [logicIf, toExcept, one, done, inversion, eq_comm]

theorem toExcept_one_eq_ok {op : Operation} {ops : List Operation} :
    (one op).toExcept = .ok ops ↔ ops = [op] := by
  simp [toExcept, one, eq_comm]

theorem toExcept_done_eq_ok {ops : List Operation} : done.toExcept = .ok ops ↔ ops = [] := by
  simp [toExcept, done, eq_comm]

/-- Emissions in a row give out what each of them does. -/
theorem toExcept_concat_eq_ok {es : List Emission} {ops : List Operation} :
    (concat es).toExcept = .ok ops ↔
      ∃ codes, List.Forall₂ (fun e code => e.toExcept = .ok code) es codes ∧
        ops = codes.flatten := by
  induction es generalizing ops with
  | nil =>
      rw [concat, toExcept_done_eq_ok]
      simp
  | cons e rest ih =>
      simp only [concat, toExcept_andThen_eq_ok, ih]
      constructor
      · rintro ⟨code, _, first, ⟨codes, others, rfl⟩, rfl⟩
        exact ⟨code :: codes, .cons first others, rfl⟩
      · rintro ⟨codes, each, rfl⟩
        cases each with
        | cons first others => exact ⟨_, _, first, ⟨_, others, rfl⟩, rfl⟩

end Emission

namespace Line

open Emission

variable {m : Mnemonic} {v : Variable} {inverted : Bool} {ops : List Operation}

theorem code_alone_eq_ok :
    (⟨m, none, inverted⟩ : Line).code.toExcept = .ok ops ↔
      ∃ joint, m.joint? = some joint ∧ ops = [.logic joint] := by
  cases joint : m.joint? with
  | none => simp [code, argumentCode, joint, toExcept, fail]
  | some i => simp [code, argumentCode, joint, toExcept_one_eq_ok]

theorem code_read_eq_ok (reads : m.access = .read) :
    (⟨m, some v, inverted⟩ : Line).code.toExcept = .ok ops ↔
      ∃ i : Instruction, i.access? = some (.read, v.category) ∧
        ops = ⟨i, v.index⟩ :: (inversion inverted ++ (m.joint?.map .logic).toList) := by
  simp only [code, argumentCode, reads, toExcept_andThen_eq_ok, toExcept_access_eq_ok,
    toExcept_logicIf_eq_ok]
  cases m.joint? with
  | none => simp [toExcept_done_eq_ok]
  | some joint => simp [toExcept_one_eq_ok]

theorem code_store_eq_ok {a : Access} (stores : m.Stores a) :
    (⟨m, some v, inverted⟩ : Line).code.toExcept = .ok ops ↔
      ∃ i : Instruction, i.access? = some (a, v.category) ∧
        ops = inversion inverted ++ [⟨i, v.index⟩] := by
  cases stores <;>
    simp [code, argumentCode, Mnemonic.access, Mnemonic.joint?, toExcept_andThen_eq_ok,
      toExcept_access_eq_ok, toExcept_logicIf_eq_ok]

/-- A line is coded just as it says. -/
theorem code_eq_ok {line : Line} : line.code.toExcept = .ok ops ↔ line.Yields ops := by
  rcases line with ⟨m, argument, inverted⟩
  cases argument with
  | none =>
      rw [code_alone_eq_ok]
      constructor
      · rintro ⟨joint, joins, rfl⟩
        exact .alone (Mnemonic.joins_iff.2 joins)
      · intro h
        cases h with
        | alone joins => exact ⟨_, Mnemonic.joins_iff.1 joins, rfl⟩
  | some v =>
      constructor
      · intro coded
        cases m with
        | read =>
            obtain ⟨i, reads, rfl⟩ := (code_read_eq_ok rfl).1 coded
            rw [Mnemonic.joint?, Option.map_none, Option.toList_none, List.append_nil]
            exact .read reads
        | and | or | not =>
            obtain ⟨i, reads, rfl⟩ := (code_read_eq_ok rfl).1 coded
            exact .join (Mnemonic.joins_iff.2 rfl) reads
        | write | set | reset =>
            obtain ⟨i, stored, rfl⟩ := (code_store_eq_ok (by constructor)).1 coded
            exact .store (by constructor) stored
      · intro h
        cases h with
        | read reads => exact (code_read_eq_ok rfl).2 ⟨_, reads, by simp [Mnemonic.joint?]⟩
        | join joins reads => cases joins <;> exact (code_read_eq_ok rfl).2 ⟨_, reads, rfl⟩
        | store stores stored => exact (code_store_eq_ok stores).2 ⟨_, stored, rfl⟩

end Line

/-- A listing yields what its lines do, in order. -/
theorem Listing.code_eq_ok {l : Listing} {ops : List Operation} :
    l.code = .ok ops ↔ ∃ codes, List.Forall₂ Line.Yields l.lines codes ∧ ops = codes.flatten := by
  simp only [code, Emission.toExcept_concat_eq_ok, List.forall₂_map_left_iff, Line.code_eq_ok]

namespace Listing

variable {symbols : SymbolTable} {ops : List Operation}

theorem code_nil_eq_ok : (⟨symbols, []⟩ : Listing).code = .ok ops ↔ ops = [] :=
  Emission.toExcept_done_eq_ok

theorem code_cons_eq_ok {line : Line} {rest : List Line} :
    (⟨symbols, line :: rest⟩ : Listing).code = .ok ops ↔
      ∃ front back, line.Yields front ∧ (⟨symbols, rest⟩ : Listing).code = .ok back ∧
        ops = front ++ back := by
  simp only [code, List.map_cons, Emission.concat, Emission.toExcept_andThen_eq_ok,
    Line.code_eq_ok]

theorem code_append_eq_ok {first later : List Line} :
    (⟨symbols, first ++ later⟩ : Listing).code = .ok ops ↔
      ∃ front back, (⟨symbols, first⟩ : Listing).code = .ok front ∧
        (⟨symbols, later⟩ : Listing).code = .ok back ∧ ops = front ++ back := by
  simp only [code, List.map_append, Emission.concat_append, Emission.toExcept_andThen_eq_ok]

end Listing

/-- The mnemonic takes the category of the argument, or stands alone and needs none. -/
inductive Line.Fits : Line → Prop
  | alone {m : Mnemonic} {inverted : Bool} : m.requiresArgument = false → Fits ⟨m, none, inverted⟩
  | argument {m : Mnemonic} {v : Variable} {inverted : Bool} :
      m.allowed.allows v.category = true → Fits ⟨m, some v, inverted⟩

theorem Line.Fits.of_reads {m : Mnemonic} (reads : m.access = .read) (v : Variable)
    (inverted : Bool) : Line.Fits ⟨m, some v, inverted⟩ := by
  refine .argument ?_
  rw [Mnemonic.allows_eq, reads]
  exact Instruction.ofAccess?_read_isSome v.category

theorem Line.Fits.exists_yields {line : Line} (h : line.Fits) : ∃ ops, line.Yields ops := by
  cases h with
  | @alone m inverted free =>
      cases m with
      | read | write | set | reset => cases free
      | and | or | not => exact ⟨_, .alone (Mnemonic.joins_iff.2 rfl)⟩
  | @argument m v inverted allowed =>
      rw [Mnemonic.allows_eq] at allowed
      obtain ⟨i, found⟩ := Option.isSome_iff_exists.1 allowed
      have accesses := Instruction.ofAccess?_eq_some_iff.1 found
      cases m with
      | read => exact ⟨_, .read accesses⟩
      | and | or | not => exact ⟨_, .join (Mnemonic.joins_iff.2 rfl) accesses⟩
      | write | set | reset => exact ⟨_, .store (by constructor) accesses⟩

theorem Line.exists_codes {lines : List Line} (fit : ∀ line ∈ lines, line.Fits) :
    ∃ codes, List.Forall₂ Line.Yields lines codes := by
  induction lines with
  | nil => exact ⟨[], .nil⟩
  | cons first rest ih =>
      rw [List.forall_mem_cons] at fit
      obtain ⟨ops, yields⟩ := fit.1.exists_yields
      obtain ⟨codes, each⟩ := ih fit.2
      exact ⟨ops :: codes, .cons yields each⟩

/-- A listing has code if all its lines fit. -/
theorem Listing.exists_code {l : Listing} (fit : ∀ line ∈ l.lines, line.Fits) :
    ∃ codes, List.Forall₂ Line.Yields l.lines codes ∧ l.code = .ok codes.flatten := by
  obtain ⟨codes, each⟩ := Line.exists_codes fit
  exact ⟨codes, each, code_eq_ok.2 ⟨codes, each, rfl⟩⟩

section

variable {symbols : SymbolTable}

theorem Mnemonic.Takes.mem {m : Mnemonic} {v : Variable} (h : m.Takes symbols v) :
    v ∈ symbols.declared :=
  (SymbolTable.mem_of_find? h.declared).1

theorem Written.fits {m : Mnemonic} {leading : Bool} {words : List Token} {line : Line}
    (h : Written symbols m leading words line) : line.Fits := by
  cases h with
  | alone free => exact .alone free
  | argument takes | inverted takes => exact .argument takes.allowed

theorem Written.declared {m : Mnemonic} {leading : Bool} {words : List Token} {line : Line}
    (h : Written symbols m leading words line) {v : Variable} (argument : line.argument = some v) :
    v ∈ symbols.declared := by
  cases h with
  | alone => cases argument
  | argument takes | inverted takes =>
      cases argument
      exact takes.mem

variable {words : List Token} {l : Listing}

/-- The variables of a listing are those declared before it and those of its own sections. -/
theorem Lists.grows (h : Lists symbols words l) : symbols.declared <+: l.symbols.declared := by
  induction h with
  | finished sections => exact sections.grows
  | line sections _ _ _ ih => exact sections.grows.trans ih
  | leading _ _ _ ih => exact ih

theorem Lists.fits (h : Lists symbols words l) : ∀ line ∈ l.lines, line.Fits := by
  induction h with
  | finished => exact fun line member => by cases member
  | line _ _ written _ ih | leading _ written _ ih =>
      exact List.forall_mem_cons.2 ⟨written.fits, ih⟩

theorem Lists.declared (h : Lists symbols words l) :
    ∀ line ∈ l.lines, ∀ v, line.argument = some v → v ∈ l.symbols.declared := by
  induction h with
  | finished => exact fun line member => by cases member
  | line _ _ written lists ih | leading _ written lists ih =>
      refine List.forall_mem_cons.2 ⟨?_, ih⟩
      intro v argument
      exact lists.grows.subset (written.declared argument)

end

/-- Every listing that can be read has code. Its lines have declared arguments, and each of them
yields the operations that it says. -/
theorem Source.code_of_listing {source : Source} {l : Listing} (read : source.listing = .ok l) :
    (∀ line ∈ l.lines, ∀ v, line.argument = some v → v ∈ l.symbols.declared) ∧
      ∃ codes, List.Forall₂ Line.Yields l.lines codes ∧ l.code = .ok codes.flatten := by
  obtain ⟨words, -, lists⟩ := Source.listing_eq_ok.1 read
  exact ⟨lists.declared, Listing.exists_code lists.fits⟩

def pulseText : Source :=
  .ofString "pulse"
    "inputs: a=0; monoflops: t(2s)=1; outputs: o=3; read !a; or t; not; !set t; and !a; write o;"

def pulse : Listing :=
  let a := Variable.plain "a" .input 0
  let t := (Variable.plain "t" .monoflop 1).withTime 1
  let o := Variable.plain "o" .output 3
  ⟨⟨[a, t, o], by decide⟩,
    [⟨.read, some a, true⟩, ⟨.or, some t, false⟩, ⟨.not, none, false⟩, ⟨.set, some t, true⟩,
      ⟨.and, some a, true⟩, ⟨.write, some o, false⟩]⟩

set_option maxRecDepth 4000 in
theorem listing_pulseText : pulseText.listing = .ok pulse := by cbv

theorem code_of_listing_pulseText :
    pulseText.listing = .ok pulse ∧ ∃ codes, List.Forall₂ Line.Yields pulse.lines codes ∧
      codes.flatten = [⟨.readInput, 0⟩, .logic .not, ⟨.readTimer, 1⟩, .logic .or, .logic .not,
        .logic .not, ⟨.setTimer, 1⟩, ⟨.readInput, 0⟩, .logic .not, .logic .and,
        ⟨.writeOutput, 3⟩] := by
  obtain ⟨-, codes, each, coded⟩ := Source.code_of_listing listing_pulseText
  exact ⟨listing_pulseText, codes, each, (Except.ok.inj coded).symm⟩

end RelayLogic
