import RelayLogic.Proofs.Board
import RelayLogic.Proofs.History

/-! What a stack shows of itself. However it is used, it answers like a list that may not grow
beyond its capacity, the item on top first. So the slots above the top never show, and the item
that is taken off is always the last one that was put on and is still there. -/
namespace RelayLogic

namespace Stack

/-- A use of a stack. -/
inductive Action (α : Type) where
  | push (item : α)
  | pop

/-- What an action shows: how it ended, with the item that came off the stack if one did, and how
much the stack then holds. -/
structure Observation (α : Type) where
  result : Except Fault (Option α)
  size : Nat
  isEmpty : Bool

variable {α : Type} {capacity : Nat}

/-- How an action ends, and the stack that it leaves. -/
def act (s : Stack α capacity) : Action α → Except Fault (Option α) × Stack α capacity
  | .push item => Prod.map (Except.map fun _ => none) id (s.tryPush item)
  | .pop => Prod.map (Except.map some) id s.tryPop

def observe (s : Stack α capacity) (a : Action α) : Observation α × Stack α capacity :=
  let (result, t) := s.act a
  (⟨result, t.size, t.isEmpty⟩, t)

/-- How an action ends on a list that has room for so many items. -/
def Action.onList (capacity : Nat) (items : List α) :
    Action α → Except Fault (Option α) × List α
  | .push item =>
    if items.length < capacity then (.ok none, item :: items)
    else (.error (.stackOverflow capacity), items)
  | .pop =>
    match items with
    | [] => (.error .stackEmpty, [])
    | item :: rest => (.ok (some item), rest)

def observeList (capacity : Nat) (items : List α) (a : Action α) : Observation α × List α :=
  let (result, items) := a.onList capacity items
  (⟨result, items.length, items.isEmpty⟩, items)

theorem isEmpty_eq (s : Stack α capacity) : s.isEmpty = s.toList.isEmpty := by
  rw [isEmpty, ← length_toList]
  cases s.toList <;> rfl

/-- An action does to the items of a stack what it does to a list. -/
theorem act_onList (s : Stack α capacity) (a : Action α) :
    Prod.map id toList (s.act a) = a.onList capacity s.toList := by
  cases a with
  | push item =>
      rw [Action.onList, length_toList]
      split
      · rename_i room
        obtain ⟨t, push, held⟩ := s.tryPush_of_lt item (by rwa [length_toList])
        rw [act, push, ← held]
        rfl
      · rename_i full
        rw [act, tryPush_of_not_lt full]
        rfl
  | pop =>
      rcases held : s.toList with _ | ⟨item, rest⟩
      · rw [act, tryPop_of_nil held]
        exact congrArg (Prod.mk _) held
      · obtain ⟨t, pop, rfl⟩ := tryPop_of_cons held
        rw [act, pop]
        rfl

/-- A stack cannot be told from the list of its items. -/
theorem simulates_observe :
    Simulates (@observe α capacity) (observeList capacity) fun s items => s.toList = items := by
  rintro s _ a rfl
  have seen := s.act_onList a
  simp only [observe, observeList, ← seen]
  exact ⟨by simp [isEmpty_eq, length_toList], rfl⟩

/-- A list that does not shrink below some items of it keeps them beneath all others. -/
theorem observeList_keeps {above base : List α} {a : Action α}
    (kept : base.length ≤ (observeList capacity (above ++ base) a).1.size) :
    ∃ above', (observeList capacity (above ++ base) a).2 = above' ++ base := by
  cases a with
  | push item =>
      simp only [observeList, Action.onList]
      split
      · exact ⟨item :: above, rfl⟩
      · exact ⟨above, rfl⟩
  | pop =>
      cases above with
      | cons item above => exact ⟨above, rfl⟩
      | nil =>
          cases base with
          | nil => exact ⟨[], rfl⟩
          | cons item base => exact absurd kept (Nat.not_succ_le_self _)

-- What lies above `base` changes from action to action, so it is not fixed in the induction.
theorem history_observeList_keeps {above base : List α} {actions : List (Action α)}
    (kept : ∀ shown ∈ (history (observeList capacity) (above ++ base) actions).1,
      base.length ≤ shown.size) :
    ∃ above', (history (observeList capacity) (above ++ base) actions).2 = above' ++ base := by
  induction actions generalizing above with
  | nil => exact ⟨above, rfl⟩
  | cons a rest ih =>
      rw [history_cons] at kept ⊢
      obtain ⟨here, later⟩ := List.forall_mem_cons.1 kept
      obtain ⟨above', step⟩ := observeList_keeps here
      rw [step] at later ⊢
      exact ih later

/-- As long as a list is longer than before an item was pushed, the item is on it. -/
theorem history_observeList_push {items : List α} {item : α} {between : List (Action α)}
    (kept : ∀ shown ∈ (history (observeList capacity) items (.push item :: between)).1,
      items.length < shown.size) :
    ∃ above, (history (observeList capacity) items (.push item :: between)).2 =
      above ++ item :: items := by
  rw [history_cons] at kept ⊢
  obtain ⟨pushed, later⟩ := List.forall_mem_cons.1 kept
  have step : (observeList capacity items (.push item)).2 = [] ++ item :: items := by
    simp only [observeList, Action.onList] at pushed ⊢
    split at pushed
    · rename_i room
      rw [if_pos room, List.nil_append]
    · exact absurd pushed (Nat.lt_irrefl _)
  rw [step] at later ⊢
  exact history_observeList_keeps later

/-- Once a stack again holds just one item more than before an item was pushed, and never held
fewer meanwhile, it is that item which is popped, and the stack is back at what it held before. -/
theorem pop_last_pushed {s t : Stack α capacity} {item : α} {between : List (Action α)}
    {shown : List (Observation α)}
    (run : history observe s (.push item :: between) = (shown, t))
    (kept : ∀ o ∈ shown, s.size < o.size) (back : t.size = s.size + 1) :
    ∃ u, t.tryPop = (.ok item, u) ∧ u.toList = s.toList := by
  have seen := simulates_observe.history (show s.toList = s.toList from rfl) (.push item :: between)
  rw [run] at seen
  obtain ⟨rfl, held⟩ := seen
  rw [← s.length_toList] at kept
  obtain ⟨above, there⟩ := history_observeList_push kept
  rw [there] at held
  -- The item is on the stack, and the stack is too small for anything to be above it.
  have counted := congrArg List.length held
  rw [length_toList, back, List.length_append, List.length_cons, length_toList] at counted
  obtain rfl : above = [] := List.length_eq_zero_iff.1 (by omega)
  exact tryPop_of_cons held

/-- However a stack is used since it was new, it shows what a list shows that may not grow beyond
the capacity. It takes an item just if it has room, and gives back the last one that it took and
still holds; an action that fails changes nothing. What is left in the slots above the top makes no
difference. -/
theorem observed_as_bounded_list [Inhabited α] (capacity : Nat) (actions : List (Action α)) :
    let seen := history observe (empty : Stack α capacity) actions
    let list := history (observeList capacity) [] actions
    let s := seen.2
    seen.1 = list.1 ∧ s.toList = list.2 ∧ (∀ shown ∈ seen.1, shown.size ≤ capacity) ∧
      (∀ item,
        if s.size < capacity then ∃ t, s.tryPush item = (.ok (), t) ∧ t.toList = item :: s.toList
        else s.tryPush item = (.error (.stackOverflow capacity), s)) ∧
      (match s.toList with
        | [] => s.tryPop = (.error .stackEmpty, s)
        | item :: rest => ∃ t, s.tryPop = (.ok item, t) ∧ t.toList = rest) ∧
      (∀ item between shown t, history observe s (.push item :: between) = (shown, t) →
        (∀ o ∈ shown, s.size < o.size) → t.size = s.size + 1 →
          ∃ u, t.tryPop = (.ok item, u) ∧ u.toList = s.toList) ∧
      ∀ t : Stack α capacity, t.toList = s.toList →
        ∀ more, (history observe t more).1 = (history observe s more).1 := by
  intro seen list s
  obtain ⟨same, held⟩ : seen.1 = list.1 ∧ s.toList = list.2 :=
    simulates_observe.history toList_empty actions
  refine ⟨same, held, ?_, ?_, ?_, ?_, ?_⟩
  · exact forall_mem_history (fun s a => (s.observe a).2.size_le) _ actions
  · intro item
    split
    · rename_i room
      exact s.tryPush_of_lt item (by rwa [length_toList])
    · rename_i full
      exact tryPush_of_not_lt full item
  · split
    · rename_i nothing
      exact tryPop_of_nil nothing
    · rename_i item rest held
      exact tryPop_of_cons held
  · exact fun item between shown t run kept back => pop_last_pushed run kept back
  · intro t alike more
    exact (simulates_observe.history alike more).1.trans (simulates_observe.history rfl more).1.symm

/-- The stack holds 2 when 7 is pushed. Then 8 is pushed, 9 finds no room, and 8 is popped; so 7 is
next. A stack with other values in the slots above the 2 shows the same. -/
theorem observed_as_bounded_list_three :
    let s := (history observe (empty : Stack Nat 3) [.push 1, .pop, .pop, .push 2]).2
    let run := history observe s [.push 7, .push 8, .push 9, .pop]
    let other : Stack Nat 3 := ⟨#v[2, 5, 6], 1, by decide⟩
    (∀ o ∈ run.1, s.size < o.size) ∧ run.2.size = s.size + 1 ∧
      (∃ u, run.2.tryPop = (.ok 7, u) ∧ u.toList = s.toList) ∧
      other.toList = s.toList ∧ other.slots ≠ s.slots ∧
      ∀ more, (history observe other more).1 = (history observe s more).1 := by
  intro s run other
  obtain ⟨-, -, -, -, -, last, stale⟩ :=
    observed_as_bounded_list 3 [.push 1, .pop, .pop, .push (2 : Nat)]
  have kept : ∀ o ∈ run.1, s.size < o.size := by decide
  exact ⟨kept, rfl, last 7 _ run.1 run.2 rfl kept rfl, rfl, by decide, stale other rfl⟩

end Stack

end RelayLogic
