import RelayLogic.Proofs.Machine

/-! The machine without its economies. On a board all cells are there from the start, each a plain
bit, and the stack is a list that may not grow beyond its capacity. A memory shows a board. What the
machine does to a memory is seen on the board that it shows: each step, and so each run, ends there
in the same way and leaves the same bits. -/
namespace RelayLogic

/-- The cells of a controller as plain bits, a list for each category. -/
@[ext] structure Board where
  cells : Category → List Bool

namespace Board

/-- So many cells of each category, all off. -/
def fresh (inputs outputs flags monoflops : Nat) : Board where
  cells
    | .input => List.replicate inputs false
    | .output => List.replicate outputs false
    | .flag => List.replicate flags false
    | .monoflop => List.replicate monoflops false

def get (x : Board) (c : Category) (index : Nat) : Except Fault Bool :=
  match (x.cells c)[index]? with
  | some b => .ok b
  | none => .error (.indexOutOfBounds c index (x.cells c).length)

def put (x : Board) (c : Category) (index : Nat) (b : Bool) : Board where
  cells d := if d = c then (x.cells d).set index b else x.cells d

def set (x : Board) (c : Category) (index : Nat) (b : Bool) : Except Fault Board :=
  (x.get c index).map fun _ => x.put c index b

def reset (x : Board) : Board where
  cells c := List.replicate (x.cells c).length false

/-- The board after a value was stored. A value that is off neither sets nor resets a cell. -/
def store (x : Board) (a : Access) (c : Category) (index : Nat) (b : Bool) : Board :=
  match a with
  | .set => if b then x.put c index true else x
  | .reset => if b then x.put c index false else x
  | .write | .read => x.put c index b

/-- The bits that a logical instruction leaves of some bits, the top first. -/
def combine : Instruction → List Bool → Except Fault (List Bool)
  | .and, right :: left :: bits => .ok ((left && right) :: bits)
  | .or, right :: left :: bits => .ok ((left || right) :: bits)
  | .not, b :: bits => .ok ((!b) :: bits)
  | _, _ => .error .stackEmpty

/-- One step with some bits on the stack, the top first. -/
def step (x : Board) (capacity : Nat) (op : Operation) (bits : List Bool) :
    Except Fault (List Bool) × Board :=
  match op.instruction.access?, bits with
  | some (.read, c), bits =>
    match x.get c op.argument with
    | .error fault => (.error fault, x)
    | .ok b =>
      (if bits.length < capacity then .ok (b :: bits) else .error (.stackOverflow capacity), x)
  | some _, [] => (.error .stackEmpty, x)
  | some (a, c), b :: bits =>
    match x.get c op.argument with
    | .error fault => (.error fault, x)
    | .ok _ => (.ok bits, x.store a c op.argument b)
  | none, bits => (combine op.instruction bits, x)

def interpret (x : Board) (capacity : Nat) (bits : List Bool) :
    List Operation → Except Fault (List Bool) × Board
  | [] => (.ok bits, x)
  | op :: rest =>
    match x.step capacity op bits with
    | (.error fault, x) => (.error fault, x)
    | (.ok bits, x) => interpret x capacity bits rest

def execute (x : Board) (capacity : Nat) (ops : List Operation) : Except Fault Bool × Board :=
  match x.interpret capacity [] ops with
  | (.error fault, x) => (.error fault, x)
  | (.ok [b], x) => (.ok b, x)
  | (.ok bits, x) => (.error (.wrongDepth bits.length 1), x)

def run (x : Board) (capacity : Nat) (ops : List Operation) : Except Fault Unit × Board :=
  match x.interpret capacity [] ops with
  | (.error fault, x) => (.error fault, x)
  | (.ok [], x) => (.ok (), x)
  | (.ok bits, x) => (.error (.wrongDepth bits.length 0), x)

/-- How many cells a board has. -/
def counts (x : Board) (c : Category) : Nat := (x.cells c).length

theorem cells_put (x : Board) (c d : Category) (index : Nat) (b : Bool) :
    (x.put c index b).cells d = if d = c then (x.cells d).set index b else x.cells d := rfl

theorem counts_put (x : Board) (c : Category) (index : Nat) (b : Bool) :
    (x.put c index b).counts = x.counts := by
  funext d
  simp only [counts, cells_put]
  split <;> simp

theorem counts_store (x : Board) (a : Access) (c : Category) (index : Nat) (b : Bool) :
    (x.store a c index b).counts = x.counts := by
  cases a <;> cases b <;> simp [store, counts_put]

/-- No step makes or removes a cell. -/
theorem counts_step (x : Board) (capacity : Nat) (op : Operation) (bits : List Bool) :
    (x.step capacity op bits).2.counts = x.counts := by
  unfold step
  split
  · split <;> rfl
  · rfl
  · split
    · rfl
    · exact counts_store ..
  · rfl

theorem counts_interpret (x : Board) (capacity : Nat) (bits : List Bool) (ops : List Operation) :
    (x.interpret capacity bits ops).2.counts = x.counts := by
  induction ops generalizing x bits with
  | nil => rfl
  | cons op rest ih =>
    have kept := x.counts_step capacity op bits
    unfold interpret
    rcases stepped : x.step capacity op bits with ⟨fault | bits', y⟩ <;> rw [stepped] at kept
    · exact kept
    · exact (ih y bits').trans kept

theorem counts_execute (x : Board) (capacity : Nat) (ops : List Operation) :
    (x.execute capacity ops).2.counts = x.counts := by
  have kept := x.counts_interpret capacity [] ops
  unfold execute
  revert kept
  rcases x.interpret capacity [] ops with ⟨fault | _ | ⟨b, _ | ⟨other, bits⟩⟩, y⟩ <;> exact id

theorem counts_run (x : Board) (capacity : Nat) (ops : List Operation) :
    (x.run capacity ops).2.counts = x.counts := by
  have kept := x.counts_interpret capacity [] ops
  unfold run
  revert kept
  rcases x.interpret capacity [] ops with ⟨fault | _ | ⟨b, bits⟩, y⟩ <;> exact id

theorem get_eq_ok_iff {x : Board} {c : Category} {index : Nat} {b : Bool} :
    x.get c index = .ok b ↔ (x.cells c)[index]? = some b := by
  unfold get
  split <;> simp_all

theorem get_of_le {x : Board} {c : Category} {index : Nat} (h : (x.cells c).length ≤ index) :
    x.get c index = .error (.indexOutOfBounds c index (x.cells c).length) := by
  simp only [get, List.getElem?_eq_none h]

/-- Putting into a cell what it holds changes nothing. -/
theorem put_get {x : Board} {c : Category} {index : Nat} {b : Bool} (h : x.get c index = .ok b) :
    x.put c index b = x := by
  refine Board.ext (funext fun d => ?_)
  rw [cells_put]
  split
  · rename_i same
    subst same
    obtain ⟨inside, rfl⟩ := List.getElem?_eq_some_iff.1 (get_eq_ok_iff.1 h)
    exact List.set_getElem_self inside
  · rfl

/-- A store leaves what it makes of the value that was there. -/
theorem put_stored {x : Board} {c : Category} {index : Nat} {old : Bool}
    (h : x.get c index = .ok old) (a : Access) (b : Bool) :
    x.put c index (Memory.stored a old b) = x.store a c index b := by
  cases a <;> cases b <;> simp [Memory.stored, store, put_get h]

end Board

namespace Stack

variable {α : Type} {capacity : Nat}

/-- Pushing takes a place, if there is one. -/
theorem map_push (s : Stack α capacity) (item : α) :
    (s.push item).map toList =
      if s.toList.length < capacity then .ok (item :: s.toList)
      else .error (.stackOverflow capacity) := by
  split
  · rename_i room
    obtain ⟨t, push, held⟩ := s.push_of_lt item room
    rw [push, Except.map, held]
  · rename_i none
    have full : s.toList.length = capacity := Nat.le_antisymm s.length_toList_le (by omega)
    rw [s.push_of_full item full, Except.map]

end Stack

namespace Memory

/-- The board that a memory shows, cells not yet in being included. -/
def board (m : Memory) : Board where
  cells c := (List.range (m.cells c)).map (m.value c)

variable {m n : Memory}

theorem length_board (m : Memory) (c : Category) : (m.board.cells c).length = m.cells c := by
  simp [board]

/-- A board is the one shown by a memory just if it has its cells with their values. -/
theorem board_eq_iff {x : Board} :
    m.board = x ↔ ∀ c, (x.cells c).length = m.cells c ∧
      ∀ index, index < m.cells c → (x.cells c)[index]? = some (m.value c index) := by
  constructor
  · rintro rfl c
    exact ⟨m.length_board c, fun index inside => by simp [board, inside]⟩
  · intro h
    refine Board.ext (funext fun c => ?_)
    obtain ⟨counted, values⟩ := h c
    refine List.ext_getElem? fun index => ?_
    by_cases inside : index < m.cells c
    · rw [values index inside]
      simp [board, inside]
    · rw [List.getElem?_eq_none (by rw [length_board]; omega),
        List.getElem?_eq_none (by rw [counted]; omega)]

theorem Same.board_eq (h : m.Same n) : m.board = n.board := by
  refine board_eq_iff.2 fun c => ⟨by rw [length_board, h.cells], fun index inside => ?_⟩
  rw [h.cells] at inside
  simp [board, inside, h.values]

@[simp] theorem board_fresh (inputs outputs flags monoflops : Nat) :
    (fresh inputs outputs flags monoflops).board = .fresh inputs outputs flags monoflops := by
  refine board_eq_iff.2 fun c => ?_
  have off (index : Nat) : (fresh inputs outputs flags monoflops).value c index = false := by
    cases c <;> exact Row.value_fresh _ index
  simp only [off]
  cases c <;> exact ⟨List.length_replicate, fun index => List.getElem?_replicate_of_lt⟩

@[simp] theorem board_reset (m : Memory) : m.reset.board = m.board.reset := by
  refine board_eq_iff.2 fun c => ⟨by simp [Board.reset, board], fun index inside => ?_⟩
  rw [cells_reset] at inside
  simp [Board.reset, board, inside]

@[simp] theorem board_put (m : Memory) (c : Category) (index : Nat) (b : Bool) :
    (m.put c index b).board = m.board.put c index b := by
  refine board_eq_iff.2 fun d => ⟨?_, fun j inside => ?_⟩
  · rw [cells_put]
    by_cases same : d = c <;> simp [Board.put, same, board]
  · rw [cells_put] at inside
    rw [value_put]
    by_cases same : d = c
    · subst same
      rw [Board.cells_put, if_pos rfl, List.getElem?_set]
      split
      · rename_i here
        subst here
        simp [board, inside]
      · rename_i other
        simp [board, inside, other]
    · simp [Board.cells_put, board, same, inside]

/-- A cell is loaded with the bit on the board. If it comes into being, the board stays as it is. -/
theorem load_board (m : Memory) (c : Category) (index : Nat) :
    match m.board.get c index with
    | .error fault => m.load c index = .error fault
    | .ok b => ∃ n, m.load c index = .ok (b, n) ∧ n.board = m.board := by
  by_cases inside : index < m.cells c
  · obtain ⟨n, load, same⟩ := load_of_lt inside
    have shown : m.board.get c index = .ok (m.value c index) := by
      simp [Board.get_eq_ok_iff, board, inside]
    rw [shown]
    exact ⟨n, load, same.board_eq⟩
  · rw [Board.get_of_le (by rw [length_board]; omega), length_board]
    exact if_neg inside

theorem write_board (m : Memory) (c : Category) (index : Nat) (b : Bool) :
    (m.write c index b).map board = m.board.set c index b := by
  have loaded := m.load_board c index
  unfold Board.set write
  split at loaded
  · rename_i missing
    rw [loaded, missing]
    rfl
  · rename_i found
    obtain ⟨n, load, same⟩ := loaded
    rw [load, found]
    simp only [bind, Except.bind, pure, Except.pure, Except.map, board_put, same]

theorem store_board (m : Memory) (a : Access) (c : Category) (index : Nat) (b : Bool) :
    (m.store a c index b).map board =
      (m.board.get c index).map fun _ => m.board.store a c index b := by
  have loaded := m.load_board c index
  unfold store
  split at loaded
  · rename_i missing
    rw [loaded, missing]
    rfl
  · rename_i found
    obtain ⟨n, load, same⟩ := loaded
    rw [load, found]
    simp only [bind, Except.bind, pure, Except.pure, Except.map, board_put, same,
      Board.put_stored found]

variable {capacity : Nat}

theorem combine_board {i : Instruction} (logical : i.access? = none) (s : Stack Bool capacity) :
    (i.combine s).map Stack.toList = Board.combine i s.toList := by
  have room := s.length_toList_le
  rcases held : s.toList with _ | ⟨right, bits⟩
  · rw [Instruction.combine, Stack.pop_of_nil held]
    cases i <;> rfl
  · obtain ⟨t, pop, held'⟩ := Stack.pop_of_cons held
    rw [held, List.length_cons] at room
    simp only [Instruction.combine, pop, bind, Except.bind]
    cases i with
    | not =>
      rw [Stack.map_push, held', if_pos (Nat.lt_of_succ_le room)]
      rfl
    | and | or =>
      rcases bits with _ | ⟨left, bits⟩
      · simp only [Stack.pop_of_nil held']
        rfl
      · obtain ⟨u, pop', held''⟩ := Stack.pop_of_cons held'
        rw [List.length_cons] at room
        simp only [pop']
        rw [Stack.map_push, held'', if_pos (by omega)]
        rfl
    | _ => cases logical

/-- A value that was popped goes into its cell, or there is no such cell. -/
theorem stored_board (m : Memory) (a : Access) (c : Category) (index : Nat) (b : Bool)
    (s : Stack Bool capacity) :
    Prod.map (Except.map Stack.toList) board
      (match m.store a c index b with
      | .error fault => (.error fault, m)
      | .ok n => (.ok s, n)) =
      match m.board.get c index with
      | .error fault => (.error fault, m.board)
      | .ok _ => (.ok s.toList, m.board.store a c index b) := by
  have stored := m.store_board a c index b
  revert stored
  rcases m.store a c index b with fault | n <;>
    rcases m.board.get c index with fault' | old <;> intro stored
  · obtain rfl : fault = fault' := Except.error.inj stored
    rfl
  · cases stored
  · cases stored
  · obtain shown : n.board = m.board.store a c index b := Except.ok.inj stored
    exact congrArg (Prod.mk _) shown

/-- What a step does to the stack and to the memory is seen on the board. -/
theorem step_board (m : Memory) (op : Operation) (s : Stack Bool capacity) :
    Prod.map (Except.map Stack.toList) board (m.step op s) =
      m.board.step capacity op s.toList := by
  unfold step Board.step
  rcases accessed : op.instruction.access? with _ | ⟨a, c⟩
  · exact congrArg (·, m.board) (combine_board accessed s)
  cases a with
  | read =>
    have loaded := m.load_board c op.argument
    split at loaded
    · rename_i missing
      simp only [loaded, missing]
      rfl
    · rename_i found
      obtain ⟨n, load, same⟩ := loaded
      simp only [load, found, Prod.map, same, Stack.map_push]
  | write | set | reset =>
    rcases held : s.toList with _ | ⟨b, bits⟩
    · simp only [Stack.pop_of_nil held]
      rfl
    · -- The three differ only in what they leave in the cell.
      obtain ⟨t, pop, rfl⟩ := Stack.pop_of_cons held
      simp only [pop]
      exact m.stored_board _ c op.argument b t

/-- A run is seen on the board, whatever way it ends. -/
theorem interpret_board (m : Memory) (s : Stack Bool capacity) (ops : List Operation) :
    Prod.map (Except.map Stack.toList) board (m.interpret s ops) =
      m.board.interpret capacity s.toList ops := by
  induction ops generalizing m s with
  | nil => rfl
  | cons op rest ih =>
    have stepped := m.step_board op s
    unfold interpret Board.interpret
    rw [← stepped]
    rcases m.step op s with ⟨fault | t, n⟩
    · rfl
    · exact ih n t

theorem execute_board (m : Memory) (capacity : Nat) (ops : List Operation) :
    Prod.map id board (m.execute capacity ops) = m.board.execute capacity ops := by
  have seen := m.interpret_board (Stack.empty : Stack Bool capacity) ops
  rw [Stack.toList_empty] at seen
  unfold execute Board.execute
  rw [← seen]
  rcases m.interpret (Stack.empty : Stack Bool capacity) ops with ⟨fault | s, n⟩
  · rfl
  · simp only [Prod.map, Except.map, ← s.length_toList]
    rcases held : s.toList with _ | ⟨b, _ | ⟨other, bits⟩⟩
    · rfl
    · obtain ⟨t, pop, -⟩ := Stack.pop_of_cons held
      rw [pop]
      rfl
    · rfl

theorem run_board (m : Memory) (capacity : Nat) (ops : List Operation) :
    Prod.map id board (m.run capacity ops) = m.board.run capacity ops := by
  have seen := m.interpret_board (Stack.empty : Stack Bool capacity) ops
  rw [Stack.toList_empty] at seen
  unfold run Board.run
  rw [← seen]
  rcases m.interpret (Stack.empty : Stack Bool capacity) ops with ⟨fault | s, n⟩
  · rfl
  · simp only [Prod.map, Except.map, Stack.isEmpty, ← s.length_toList]
    rcases s.toList with _ | ⟨b, bits⟩ <;> rfl

end Memory

end RelayLogic
