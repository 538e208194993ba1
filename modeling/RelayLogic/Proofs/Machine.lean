import RelayLogic.Machine.Run

/-! What the machine shows from outside. A stack is seen as the list of its items and a memory as
the values of its cells, so slots above the top and cells not yet in being play no part. Runs of
operations that only read cells compose: `Turns` says what such a run makes of the items on the
stack, and how deep the stack gets on the way. -/
namespace RelayLogic

namespace Stack

variable {α : Type} {capacity : Nat}

theorem toList_set_push (s : Stack α capacity) (item : α) (h : s.size < capacity) :
    (⟨s.slots.set s.size item, s.size + 1, h⟩ : Stack α capacity).toList = item :: s.toList := by
  have inside : s.size < s.slots.toList.length := by simpa using h
  simp only [toList, Vector.toList_set]
  rw [List.take_succ_eq_append_getElem (by simpa using h)]
  simp [List.take_set_of_le]

theorem tryPush_of_lt (s : Stack α capacity) (item : α) (h : s.toList.length < capacity) :
    ∃ t : Stack α capacity, s.tryPush item = (.ok (), t) ∧ t.toList = item :: s.toList := by
  rw [length_toList] at h
  exact ⟨_, dif_pos h, toList_set_push s item h⟩

theorem tryPush_of_not_lt {s : Stack α capacity} (full : ¬s.size < capacity) (item : α) :
    s.tryPush item = (.error (.stackOverflow capacity), s) :=
  dif_neg full

theorem push_of_lt (s : Stack α capacity) (item : α) (h : s.toList.length < capacity) :
    ∃ t : Stack α capacity, s.push item = .ok t ∧ t.toList = item :: s.toList := by
  obtain ⟨t, push, held⟩ := s.tryPush_of_lt item h
  exact ⟨t, by rw [Stack.push, push], held⟩

theorem push_of_full (s : Stack α capacity) (item : α) (h : s.toList.length = capacity) :
    s.push item = .error (.stackOverflow capacity) := by
  rw [length_toList] at h
  rw [push, tryPush_of_not_lt (Nat.not_lt_of_le (Nat.le_of_eq h.symm))]

theorem length_toList_le (s : Stack α capacity) : s.toList.length ≤ capacity := by
  rw [length_toList]
  exact s.size_le

theorem tryPop_of_nil {s : Stack α capacity} (h : s.toList = []) :
    s.tryPop = (.error .stackEmpty, s) := by
  rcases s with ⟨slots, _ | size, bound⟩
  · rfl
  · have counted := congrArg List.length h
    rw [length_toList] at counted
    cases counted

theorem tryPop_of_cons {s : Stack α capacity} {item : α} {rest : List α}
    (h : s.toList = item :: rest) :
    ∃ t : Stack α capacity, s.tryPop = (.ok item, t) ∧ t.toList = rest := by
  rcases s with ⟨slots, _ | size, bound⟩
  · simp [toList] at h
  · have inside : size < slots.toList.length := by simpa using Nat.lt_of_succ_le bound
    simp only [toList] at h
    rw [List.take_succ_eq_append_getElem inside, List.reverse_append] at h
    obtain ⟨rfl, rfl⟩ := List.cons.inj h
    exact ⟨⟨slots, size, Nat.le_of_succ_le bound⟩, by simp [tryPop], rfl⟩

theorem pop_of_nil {s : Stack α capacity} (h : s.toList = []) : s.pop = .error .stackEmpty := by
  rw [pop, tryPop_of_nil h]

theorem pop_of_cons {s : Stack α capacity} {item : α} {rest : List α}
    (h : s.toList = item :: rest) :
    ∃ t : Stack α capacity, s.pop = .ok (item, t) ∧ t.toList = rest := by
  obtain ⟨t, pop, held⟩ := tryPop_of_cons h
  exact ⟨t, by rw [Stack.pop, pop], held⟩

end Stack

namespace Memory

/-- Two memories that cannot be told apart by reading them. -/
structure Same (m n : Memory) : Prop where
  cells : ∀ c, m.cells c = n.cells c
  values : ∀ c index, m.value c index = n.value c index

theorem Same.refl (m : Memory) : m.Same m := ⟨fun _ => rfl, fun _ _ => rfl⟩

theorem Same.trans {m n k : Memory} (h : m.Same n) (h' : n.Same k) : m.Same k :=
  ⟨fun c => (h.cells c).trans (h'.cells c),
    fun c index => (h.values c index).trans (h'.values c index)⟩

/-- Bringing a cell into being does not show. -/
theorem same_put_off {m : Memory} {c : Category} {index : Nat}
    (h : (m.row c).accessed[index]? = none) : (m.put c index false).Same m := by
  refine ⟨fun d => cells_put m c d index false, fun d j => ?_⟩
  rw [value_put]
  split
  · rename_i same
    obtain ⟨rfl, rfl⟩ := same
    simp only [value, Row.value, h, Option.getD_none]
  · rfl

theorem load_of_lt {m : Memory} {c : Category} {index : Nat} (h : index < m.cells c) :
    ∃ n : Memory, m.load c index = .ok (m.value c index, n) ∧ n.Same m := by
  unfold load
  rw [if_pos h]
  cases found : (m.row c).accessed[index]? with
  | none => exact ⟨_, by simp only [value, Row.value, found, Option.getD_none], same_put_off found⟩
  | some b => exact ⟨m, by simp only [value, Row.value, found, Option.getD_some], .refl m⟩

variable {capacity : Nat}

theorem interpret_append (m : Memory) (s : Stack Bool capacity) (first second : List Operation) :
    m.interpret s (first ++ second) =
      match m.interpret s first with
      | (.error fault, n) => (.error fault, n)
      | (.ok t, n) => n.interpret t second := by
  induction first generalizing m s with
  | nil => rfl
  | cons op first ih =>
      simp only [List.cons_append, interpret]
      split
      · rfl
      · exact ih _ _

/-- Operations that only read cells turn the items on a stack into others, and the stack gets no
deeper than `depth` meanwhile. Where it may not get that deep, the run ends with an overflow. -/
def Turns (m : Memory) (capacity : Nat) (ops : List Operation) (depth : Nat)
    (before after : List Bool) : Prop :=
  ∀ (n : Memory) (s : Stack Bool capacity), n.Same m → s.toList = before →
    ∃ k : Memory, k.Same m ∧
      if depth ≤ capacity then
        ∃ t : Stack Bool capacity, n.interpret s ops = (.ok t, k) ∧ t.toList = after
      else n.interpret s ops = (.error (.stackOverflow capacity), k)

namespace Turns

variable {m : Memory} {first second : List Operation} {a b : Nat} {before between after : List Bool}

theorem nil {items : List Bool} (h : a ≤ items.length) : m.Turns capacity [] a items items := by
  intro n s same held
  have fits := s.length_toList_le
  rw [held] at fits
  refine ⟨n, same, ?_⟩
  rw [if_pos (Nat.le_trans h fits)]
  exact ⟨s, rfl, held⟩

theorem append (h : m.Turns capacity first a before between)
    (h' : m.Turns capacity second b between after) :
    m.Turns capacity (first ++ second) (max a b) before after := by
  intro n s same held
  obtain ⟨k, same', run⟩ := h n s same held
  rw [interpret_append]
  split at run
  · rename_i room
    obtain ⟨t, run, held'⟩ := run
    obtain ⟨l, same'', run'⟩ := h' k t same' held'
    refine ⟨l, same'', ?_⟩
    simpa only [run, Nat.max_le, room, true_and] using run'
  · rename_i full
    refine ⟨k, same', ?_⟩
    rw [if_neg (by omega), run]

/-- A run that has its room does not overflow. -/
theorem within (h : m.Turns capacity first a before between) (room : a ≤ capacity) :
    m.Turns capacity first 0 before between := by
  intro n s same held
  obtain ⟨k, same', run⟩ := h n s same held
  rw [if_pos room] at run
  refine ⟨k, same', ?_⟩
  rwa [if_pos (Nat.zero_le capacity)]

theorem of_step {op : Operation} (items : List Bool)
    (h : ∀ (n : Memory) (s : Stack Bool capacity), n.Same m → s.toList = before →
      ∃ (k : Memory) (t : Stack Bool capacity), k.Same m ∧ n.step op s = (.ok t, k) ∧
        t.toList = items) : m.Turns capacity [op] 0 before items := by
  intro n s same held
  obtain ⟨k, t, same', step, held'⟩ := h n s same held
  refine ⟨k, same', ?_⟩
  rw [if_pos (Nat.zero_le _)]
  exact ⟨t, by simp only [interpret, step], held'⟩

/-- Reading a cell puts its value on top, which takes one more place. -/
theorem read {i : Instruction} {c : Category} {index : Nat} (reads : i.access? = some (.read, c))
    (inside : index < m.cells c) (items : List Bool) :
    m.Turns capacity [⟨i, index⟩] (items.length + 1) items (m.value c index :: items) := by
  intro n s same held
  rw [← same.cells c] at inside
  obtain ⟨k, load, same'⟩ := load_of_lt inside
  rw [same.values c index] at load
  refine ⟨k, same'.trans same, ?_⟩
  have step : n.step ⟨i, index⟩ s = (s.push (m.value c index), k) := by
    simp only [Memory.step, reads, load]
  have fits := s.length_toList_le
  split
  · rename_i room
    obtain ⟨t, push, held'⟩ := s.push_of_lt (m.value c index) (by rwa [held])
    exact ⟨t, by simp only [interpret, step, push], by rw [held', held]⟩
  · rename_i none
    have full : s.toList.length = capacity := by
      rw [held] at fits ⊢
      omega
    simp only [interpret, step, s.push_of_full (m.value c index) full]

theorem combine {i : Instruction} (logical : i.access? = none) {items : List Bool}
    (h : ∀ s : Stack Bool capacity, s.toList = before →
      ∃ t : Stack Bool capacity, i.combine s = .ok t ∧ t.toList = items) :
    m.Turns capacity [.logic i] 0 before items := by
  refine of_step items fun n s same held => ?_
  obtain ⟨t, combined, held'⟩ := h s held
  exact ⟨n, t, same, by simp only [Memory.step, Operation.logic, logical, combined], held'⟩

theorem not (b : Bool) (items : List Bool) :
    m.Turns capacity [.logic .not] 0 (b :: items) ((!b) :: items) := by
  refine combine rfl fun s held => ?_
  obtain ⟨t, pop, rest⟩ := Stack.pop_of_cons held
  have room := s.length_toList_le
  rw [held, List.length_cons, ← rest] at room
  obtain ⟨u, push, held'⟩ := t.push_of_lt (!b) room
  exact ⟨u, by simp only [Instruction.combine, pop, bind, Except.bind, push], by rw [held', rest]⟩

/-- The two items on top, the right one first, give way to one. -/
theorem of_pops {i : Instruction} (logical : i.access? = none) {left right result : Bool}
    (h : ∀ s t u : Stack Bool capacity, s.pop = .ok (right, t) → t.pop = .ok (left, u) →
      i.combine s = u.push result) (items : List Bool) :
    m.Turns capacity [.logic i] 0 (right :: left :: items) (result :: items) := by
  refine combine logical fun s held => ?_
  obtain ⟨t, pop, rest⟩ := Stack.pop_of_cons held
  obtain ⟨u, pop', rest'⟩ := Stack.pop_of_cons rest
  have room := t.length_toList_le
  rw [rest, List.length_cons, ← rest'] at room
  obtain ⟨w, push, held'⟩ := u.push_of_lt result room
  exact ⟨w, by rw [h s t u pop pop', push], by rw [held', rest']⟩

theorem and (left right : Bool) (items : List Bool) :
    m.Turns capacity [.logic .and] 0 (right :: left :: items) ((left && right) :: items) := by
  refine of_pops rfl (fun s t u pop pop' => ?_) items
  simp only [Instruction.combine, pop, pop', bind, Except.bind]

theorem or (left right : Bool) (items : List Bool) :
    m.Turns capacity [.logic .or] 0 (right :: left :: items) ((left || right) :: items) := by
  refine of_pops rfl (fun s t u pop pop' => ?_) items
  simp only [Instruction.combine, pop, pop', bind, Except.bind]

end Turns

end Memory

end RelayLogic
