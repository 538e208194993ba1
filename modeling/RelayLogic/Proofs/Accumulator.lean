import RelayLogic.Proofs.ListingCode
import RelayLogic.Proofs.Sequence

/-! Listings as accumulator programs. A block reads a variable, changes the value that it holds line
by line, from left to right, and stores it. No more than two places of the stack are taken, one for
the value and one for the variable that it is joined with, and the stack is empty between blocks. -/
namespace RelayLogic

/-- A line that changes the value held. -/
inductive Move where
  | and (inverted : Bool) (v : Variable)
  | or (inverted : Bool) (v : Variable)
  | not
deriving DecidableEq

namespace Move

def line : Move → Line
  | and inverted v => ⟨.and, some v, inverted⟩
  | or inverted v => ⟨.or, some v, inverted⟩
  | not => ⟨.not, none, false⟩

/-- What a move makes of the value held. -/
def apply (x : Snapshot) (held : Bool) : Move → Bool
  | and inverted v => held && (inverted ^^ x.bitOf v)
  | or inverted v => held || (inverted ^^ x.bitOf v)
  | not => !held

end Move

/-- A value is read, changed by some moves, and stored in the target. -/
structure Block where
  first : Variable
  inverted : Bool
  moves : List Move
  assignment : Assignment
  complemented : Bool
  target : Variable
deriving DecidableEq

namespace Block

def lines (b : Block) : List Line :=
  ⟨.read, some b.first, b.inverted⟩ ::
    (b.moves.map Move.line ++ [⟨b.assignment.mnemonic, some b.target, b.complemented⟩])

/-- The value that the moves of a block lead to, each in its turn. -/
def value (b : Block) (x : Snapshot) : Bool :=
  b.moves.foldl (Move.apply x) (b.inverted ^^ x.bitOf b.first)

/-- The values of all cells after a block. -/
def after (x : Snapshot) (b : Block) : Snapshot :=
  x.assign b.assignment b.target (b.complemented ^^ b.value x)

/-- Whether the target is of a category that may be stored so. -/
def Permitted (b : Block) : Prop :=
  b.assignment.mnemonic.allowed.allows b.target.category = true

instance (b : Block) : Decidable b.Permitted := inferInstanceAs (Decidable (_ = true))

theorem Permitted.fits {b : Block} (h : b.Permitted) : ∀ line ∈ b.lines, line.Fits := by
  refine List.forall_mem_cons.2 ⟨.of_reads rfl b.first b.inverted, ?_⟩
  intro line member
  rcases List.mem_append.1 member with moved | stored
  · obtain ⟨move, -, rfl⟩ := List.mem_map.1 moved
    cases move with
    | and inverted v | or inverted v => exact .of_reads rfl v inverted
    | not => exact .alone rfl
  · rw [List.mem_singleton.1 stored]
    exact .argument h

end Block

namespace Memory

variable {m : Memory} {capacity : Nat}

theorem Turns.inversion (inverted b : Bool) (items : List Bool) :
    m.Turns capacity (inversion inverted) 0 (b :: items) ((inverted ^^ b) :: items) := by
  cases inverted with
  | true => exact .invertIf true b items
  | false => exact .invertIf false b items

/-- The first line of a block puts the value of its argument on the empty stack. -/
theorem turns_first {v : Variable} {inverted : Bool} {ops : List Operation}
    (coded : (⟨.read, some v, inverted⟩ : Line).Yields ops) (inside : v.index < m.cells v.category)
    (room : 1 ≤ capacity) : m.Turns capacity ops 0 [] [inverted ^^ m.bitOf v] := by
  cases coded with
  | read reads => exact ((Turns.read reads inside []).within room).append (.inversion inverted _ [])
  | join joins => cases joins
  | store stores => cases stores

/-- A variable is read above the value held, and both give way to one. -/
theorem turns_join {i joint : Instruction} {v : Variable} {inverted held result : Bool}
    (reads : i.access? = some (.read, v.category)) (inside : v.index < m.cells v.category)
    (room : 2 ≤ capacity)
    (joins : m.Turns capacity [.logic joint] 0 [inverted ^^ m.bitOf v, held] [result]) :
    m.Turns capacity (⟨i, v.index⟩ :: (inversion inverted ++ [.logic joint])) 0 [held] [result] :=
  ((Turns.read reads inside [held]).within room).append
    ((Turns.inversion inverted _ [held]).append joins)

theorem turns_move {move : Move} {ops : List Operation} (coded : move.line.Yields ops)
    (inside : ∀ v, move.line.argument = some v → v.index < m.cells v.category)
    (room : 2 ≤ capacity) (held : Bool) :
    m.Turns capacity ops 0 [held] [move.apply m.value held] := by
  cases move with
  | and inverted v =>
      cases coded with
      | join joins reads =>
          cases joins
          exact turns_join reads (inside v rfl) room (.and held _ [])
      | store stores => cases stores
  | or inverted v =>
      cases coded with
      | join joins reads =>
          cases joins
          exact turns_join reads (inside v rfl) room (.or held _ [])
      | store stores => cases stores
  | not =>
      cases coded with
      | alone joins =>
          cases joins
          exact .not held []

variable {symbols : SymbolTable} {ops : List Operation}

/-- Moves act on the value held one after another. -/
theorem turns_moves {moves : List Move}
    (coded : (⟨symbols, moves.map Move.line⟩ : Listing).code = .ok ops)
    (inside : ∀ line ∈ moves.map Move.line, ∀ v, line.argument = some v →
      v.index < m.cells v.category)
    (room : 2 ≤ capacity) (held : Bool) :
    m.Turns capacity ops 0 [held] [moves.foldl (Move.apply m.value) held] := by
  induction moves generalizing ops held with
  | nil =>
      rw [Listing.code_nil_eq_ok.1 coded]
      exact .nil (Nat.zero_le _)
  | cons move rest ih =>
      obtain ⟨front, back, first, later, rfl⟩ := Listing.code_cons_eq_ok.1 coded
      rw [List.map_cons, List.forall_mem_cons] at inside
      exact (turns_move first inside.1 room held).append
        (ih later inside.2 (move.apply m.value held))

/-- A block stores its value, and leaves the stack as empty as before. -/
theorem effects_block {b : Block} (coded : (⟨symbols, b.lines⟩ : Listing).code = .ok ops)
    (inside : ∀ line ∈ b.lines, ∀ v, line.argument = some v → v.index < m.cells v.category)
    (room : 2 ≤ capacity) :
    ∃ after : Memory, m.Effects capacity ops after ∧ after.value = Block.after m.value b ∧
      ∀ c, after.cells c = m.cells c := by
  obtain ⟨front, _, first, others, rfl⟩ := Listing.code_cons_eq_ok.1 coded
  obtain ⟨moved, _, moves, last, rfl⟩ := Listing.code_append_eq_ok.1 others
  obtain ⟨stored, _, store, finished, rfl⟩ := Listing.code_cons_eq_ok.1 last
  obtain ⟨i, stores, rfl⟩ :=
    (Line.code_store_eq_ok b.assignment.stores_mnemonic).1 (Line.code_eq_ok.2 store)
  obtain rfl := Listing.code_nil_eq_ok.1 finished
  simp only [Block.lines, List.forall_mem_cons, List.forall_mem_append] at inside
  obtain ⟨insideFirst, insideMoves, insideTarget, -⟩ := inside
  have held := turns_first first (insideFirst b.first rfl) (Nat.le_of_succ_le room)
  have changed := turns_moves moves insideMoves room (b.inverted ^^ m.bitOf b.first)
  -- The store line inverts what is held, so it takes part in working out the value.
  have turns := held.append (changed.append (.inversion b.complemented _ []))
  rw [List.append_nil, ← List.append_assoc moved, ← List.append_assoc front]
  exact ⟨_, .store turns (Nat.zero_le capacity) stores b.assignment.access_ne_read
    (insideTarget b.target rfl), value_put_stored m b.assignment b.target _, fun _ => cells_put ..⟩

/-- Blocks act on what those before them leave. -/
theorem effects_blocks {blocks : List Block}
    (coded : (⟨symbols, blocks.flatMap Block.lines⟩ : Listing).code = .ok ops)
    (inside : ∀ line ∈ blocks.flatMap Block.lines, ∀ v, line.argument = some v →
      v.index < m.cells v.category)
    (room : 2 ≤ capacity) :
    ∃ after : Memory, m.Effects capacity ops after ∧
      after.value = blocks.foldl Block.after m.value ∧ ∀ c, after.cells c = m.cells c := by
  induction blocks generalizing m ops with
  | nil =>
      rw [Listing.code_nil_eq_ok.1 coded]
      exact ⟨m, .nil m capacity, rfl, fun _ => rfl⟩
  | cons b rest ih =>
      rw [List.flatMap_cons] at coded inside
      obtain ⟨front, back, first, others, rfl⟩ := Listing.code_append_eq_ok.1 coded
      obtain ⟨insideFirst, insideRest⟩ := List.forall_mem_append.1 inside
      obtain ⟨between, effects, values, cells⟩ := effects_block first insideFirst room
      have insideRest' : ∀ line ∈ rest.flatMap Block.lines, ∀ v, line.argument = some v →
          v.index < between.cells v.category := by
        simpa only [cells] using insideRest
      obtain ⟨after, effects', values', cells'⟩ := ih others insideRest'
      refine ⟨after, effects.append effects', ?_, ?_⟩
      · rw [values', values, List.foldl_cons]
      · intro c
        rw [cells', cells]

end Memory

/-- A listing of blocks has code, and its runs carry out the blocks in order, wherever there are
two places on the stack and a cell for each variable. -/
theorem Listing.run_blocks {l : Listing} {blocks : List Block}
    (shape : l.lines = blocks.flatMap Block.lines) (permitted : ∀ b ∈ blocks, b.Permitted) :
    ∃ ops, l.code = .ok ops ∧ ∀ m : Memory,
      (∀ line ∈ l.lines, ∀ v, line.argument = some v → v.index < m.cells v.category) →
        ∀ capacity, 2 ≤ capacity →
          (m.run capacity ops).1 = .ok () ∧
          (m.run capacity ops).2.value = blocks.foldl Block.after m.value ∧
          ∀ c, (m.run capacity ops).2.cells c = m.cells c := by
  rcases l with ⟨symbols, lines⟩
  obtain rfl := shape
  have fit : ∀ line ∈ blocks.flatMap Block.lines, line.Fits := by
    intro line member
    obtain ⟨b, known, there⟩ := List.mem_flatMap.1 member
    exact (permitted b known).fits line there
  obtain ⟨codes, -, coded⟩ := Listing.exists_code (l := ⟨symbols, _⟩) fit
  refine ⟨codes.flatten, coded, ?_⟩
  intro m inside capacity room
  obtain ⟨after, effects, values, cells⟩ := Memory.effects_blocks coded inside room
  obtain ⟨ends, same⟩ := effects.run
  refine ⟨ends, ?_, ?_⟩
  · funext c index
    rw [same.values, values]
  · intro c
    rw [same.cells, cells]

/-- The listing of `read a; and !f; not; !set t; read t; or f; and !a; write o;`. -/
def gated : Listing :=
  let a := Variable.plain "a" .input 0
  let f := Variable.plain "f" .flag 0
  let t := Variable.plain "t" .monoflop 0
  let o := Variable.plain "o" .output 0
  ⟨⟨[a, f, t, o], by decide⟩,
    [⟨.read, some a, false⟩, ⟨.and, some f, true⟩, ⟨.not, none, false⟩, ⟨.set, some t, true⟩,
      ⟨.read, some t, false⟩, ⟨.or, some f, false⟩, ⟨.and, some a, true⟩,
      ⟨.write, some o, false⟩]⟩

def gatedBlocks : List Block :=
  let a := Variable.plain "a" .input 0
  let f := Variable.plain "f" .flag 0
  let t := Variable.plain "t" .monoflop 0
  let o := Variable.plain "o" .output 0
  [⟨a, false, [.and true f, .not], .set, true, t⟩,
    ⟨t, false, [.or false f, .and true a], .assign, false, o⟩]

/-- With `a` on and `f` off, `t` goes on. The second block joins from left to right, so its value is
that of `(t | f) & !a`, and `o` goes off. -/
theorem run_blocks_gated :
    let m := ((Memory.fresh 1 1 1 1).put .input 0 true).put .output 0 true
    gated.lines = gatedBlocks.flatMap Block.lines ∧ (∀ b ∈ gatedBlocks, b.Permitted) ∧
      (∀ line ∈ gated.lines, ∀ v, line.argument = some v → v.index < m.cells v.category) ∧
      ∃ ops, gated.code = .ok ops ∧ (m.run 2 ops).1 = .ok () ∧
        (m.run 2 ops).2.value .monoflop 0 = true ∧ (m.run 2 ops).2.value .output 0 = false := by
  intro m
  have permitted : ∀ b ∈ gatedBlocks, b.Permitted := by decide
  have inside : ∀ line ∈ gated.lines, ∀ v, line.argument = some v →
      v.index < m.cells v.category := by
    intro line member v argument
    fin_cases member <;> cases argument <;> decide
  obtain ⟨ops, coded, runs⟩ := Listing.run_blocks (l := gated) rfl permitted
  obtain ⟨ends, values, -⟩ := runs m inside 2 (Nat.le_refl 2)
  refine ⟨rfl, permitted, inside, ops, coded, ends, ?_, ?_⟩
  · rw [values]
    rfl
  · rw [values]
    rfl

end RelayLogic
