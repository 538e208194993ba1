import RelayLogic.Proofs.ResolvedShape
import RelayLogic.Proofs.Safety

/-! Where the walk of a tree ends. The sites of a tree are its terms in the order in which a walk
comes to them. A walk gives out the code of the terms before the first site that has a defect and
fails there as the defect says, whatever else is wrong with the tree further on. -/
namespace RelayLogic

/-- As many terms as an operator can have: exactly one where nothing joins them, else one at
least. -/
structure Group.Filled (g : Expression) : Prop where
  nonempty : g.terms ≠ []
  lone : g.operator = .none ∨ g.operator = .timer → g.terms.length = 1

namespace Group

variable {g : Expression}

theorem fits_iff : g.operator.fits g.terms.length = true ↔ g.Filled := by
  rcases g with ⟨id, operator, terms, owner, assignment⟩
  constructor
  · intro fits
    refine ⟨fun empty => ?_, fun alone => Operator.length_eq_one ?_ fits⟩
    · exact Operator.ne_zero_of_fits fits (List.length_eq_zero_iff.2 empty)
    · rcases alone with rfl | rfl <;> rfl
  · rintro ⟨nonempty, lone⟩
    cases operator with
    | none => exact decide_eq_true (lone (.inl rfl))
    | timer => exact decide_eq_true (lone (.inr rfl))
    | or | and => exact decide_eq_true (fun none => nonempty (List.length_eq_zero_iff.1 none))

instance : Decidable g.Filled := decidable_of_iff _ fits_iff

/-- Other terms in the place of the terms, as many of them, fill the group as well. -/
theorem Filled.refill (h : g.Filled) {terms : List Term} (length : terms.length = g.terms.length) :
    Group.Filled { g with terms } := by
  refine fits_iff.1 ?_
  change g.operator.fits terms.length = true
  rw [length]
  exact fits_iff.2 h

end Group

theorem Group.forall_mem_groups {g : Expression} {P : Expression → Prop} :
    (∀ h ∈ g.groups, P h) ↔ P g ∧ ∀ t ∈ g.terms, ∀ h ∈ t.groups, P h := by
  rw [g.groups_eq, List.forall_mem_cons]
  refine and_congr_right fun _ => ?_
  constructor
  · intro each t member h inside
    exact each h (Term.mem_groupsOfList.2 ⟨t, member, inside⟩)
  · intro each h inside
    obtain ⟨t, member, here⟩ := Term.mem_groupsOfList.1 inside
    exact each t member h here

/-- A group that has as many terms as its operator can have, none of them empty. -/
structure Group.Whole (g : Expression) : Prop extends Group.Filled g where
  full : ∀ inverted, Term.empty inverted ∉ g.terms

theorem Term.isRegular_iff {t : Term} :
    t.isRegular = true ↔ (∀ inverted, t ≠ .empty inverted) ∧ ∀ g ∈ t.groups, g.Whole := by
  induction t using Term.induction with
  | empty inverted =>
      refine iff_of_false ?_ ?_
      · exact fun regular => nomatch regular
      · exact fun ⟨other, _⟩ => other inverted rfl
  | leaf inverted v => exact iff_of_true rfl ⟨nofun, nofun⟩
  | group inverted g ih =>
      change g.isRegular = true ↔ _ ∧ ∀ h ∈ g.groups, h.Whole
      rw [Group.isRegular_iff, Group.fits_iff, Group.forall_mem_groups]
      constructor
      · rintro ⟨filled, regular⟩
        have whole := fun t member => (ih t member).1 (regular t member)
        refine ⟨nofun, ⟨filled, ?_⟩, fun t member => (whole t member).2⟩
        exact fun i empty => (whole _ empty).1 i rfl
      · rintro ⟨-, ⟨filled, full⟩, below⟩
        refine ⟨filled, fun t member => (ih t member).2 ⟨?_, below t member⟩⟩
        rintro i rfl
        exact full i member

mutual

/-- The operations of an expression, as if nothing could be wrong with it. -/
def Group.steps (e : Expression) : List Operation :=
  match e with
  | ⟨_, operator, terms, _, _⟩ => Term.stepsOfList terms Option.none operator.joint?
termination_by structural e

/-- An inversion comes after the value that it inverts. -/
def Term.steps (t : Term) : List Operation :=
  match t with
  | .empty _ => []
  | .leaf inverted v =>
    (Emission.access .read v).operations ++ (Emission.logicIf inverted .not).operations
  | .group inverted g => g.steps ++ (Emission.logicIf inverted .not).operations
termination_by structural t

/-- A joint comes after the second of the terms that it joins. -/
def Term.stepsOfList (ts : List Term) : Option Instruction → Option Instruction → List Operation :=
  match ts with
  | [] => fun _ _ => []
  | t :: rest => fun joint later =>
    t.steps ++ joint.toList.map .logic ++ Term.stepsOfList rest later later
termination_by structural ts

end

/-- A group around a site: how it is inverted, and its terms before and after the one that the site
is in. -/
structure Frame where
  inverted : Bool
  group : Expression
  before : List Term
  later : List Term

/-- The group with a term between those before and those after. -/
def Frame.holding (f : Frame) (t : Term) : Expression :=
  { f.group with terms := f.before ++ t :: f.later }

def Frame.around (f : Frame) (t : Term) : Term := .group f.inverted (f.holding t)

/-- The operations of the terms before. The joints between them are due, the next one is not. -/
def Frame.steps (f : Frame) : List Operation :=
  Term.stepsOfList f.before none f.group.operator.joint?

/-- A term of a tree with the groups around it, the innermost first. -/
structure Site where
  frames : List Frame
  term : Term

mutual

def Group.sites (e : Expression) : Bool → List Frame → List Site :=
  match e with
  | ⟨id, operator, terms, owner, assignment⟩ => fun inverted outer =>
    Term.sitesOfList terms inverted ⟨id, operator, terms, owner, assignment⟩ [] outer
termination_by structural e

/-- The sites in a term, from the term itself down, each term before those after it. -/
def Term.sites (t : Term) : List Frame → List Site :=
  match t with
  | .empty inverted => fun outer => [⟨outer, .empty inverted⟩]
  | .leaf inverted v => fun outer => [⟨outer, .leaf inverted v⟩]
  | .group inverted g => fun outer => ⟨outer, .group inverted g⟩ :: g.sites inverted outer
termination_by structural t

def Term.sitesOfList (ts : List Term) :
    Bool → Expression → List Term → List Frame → List Site :=
  match ts with
  | [] => fun _ _ _ _ => []
  | t :: later => fun inverted g before outer =>
    t.sites (⟨inverted, g, before, later⟩ :: outer) ++
      Term.sitesOfList later inverted g (before ++ [t]) outer
termination_by structural ts

end

/-- All sites of a tree. The first is the root. -/
def Group.walk (e : Expression) : List Site := (Term.group false e).sites []

namespace Site

/-- The number of the group that the term is in. -/
def number (s : Site) : Nat :=
  match s.frames with
  | [] => 0
  | f :: _ => f.group.id

/-- What is wrong with the term itself, whatever it has below it. -/
def defect? (s : Site) : Option CodeError :=
  match s.term with
  | .empty _ => some (.emptyTerm s.number)
  | .leaf _ _ => none
  | .group _ g =>
    if maxLevels ≤ s.frames.length then some .nestingTooDeep
    else if g.Filled then none
    else some (.malformed g.id)

def isDefective (s : Site) : Bool := s.defect?.isSome

/-- The operations of all terms that end before the site. -/
def preceding (s : Site) : List Operation := s.frames.reverse.flatMap Frame.steps

end Site

/-- The whole tree with another term at a site, inside of these groups. -/
def Frame.rebuild (frames : List Frame) (t : Term) : Term :=
  frames.foldl (fun inner f => f.around inner) t

/-- A term as a tree of its own. -/
def Term.asRoot : Term → Expression
  | .group false g => g
  | t => .anonymous 0 .none [t]

/-- The tree of a site with another term there. -/
def Site.replaced (s : Site) (t : Term) : Expression := (Frame.rebuild s.frames t).asRoot

/-- What a walk gives out from the site on to the end of the term there. -/
def Site.emission (s : Site) : Emission := s.term.emit s.number (maxLevels - s.frames.length)

theorem Site.emission_of_defect {s : Site} {err : CodeError} (defect : s.defect? = some err) :
    s.emission = .fail err := by
  rcases s with ⟨frames, t⟩
  cases t with
  | empty inverted =>
      cases defect
      rfl
  | leaf inverted v => cases defect
  | group inverted g =>
      simp only [Site.defect?] at defect
      split at defect
      · rename_i deep
        cases defect
        have none : maxLevels - frames.length = 0 := Nat.sub_eq_zero_of_le deep
        simp only [Site.emission, Term.emit, none, Group.emit_zero]
        rfl
      · rename_i shallow
        split at defect
        · cases defect
        · rename_i poor
          cases defect
          have room : maxLevels - frames.length ≠ 0 :=
            Nat.sub_ne_zero_of_lt (Nat.lt_of_not_le shallow)
          obtain ⟨inner, some⟩ := Nat.exists_eq_succ_of_ne_zero room
          simp only [Site.emission, Term.emit, some, Group.emit_of_not_fits (mt Group.fits_iff.1 poor)]
          rfl

theorem Site.isDefective_eq_true {s : Site} :
    s.isDefective = true ↔ ∃ err, s.defect? = some err :=
  Option.isSome_iff_exists

theorem Site.isDefective_eq_false {s : Site} : s.isDefective = false ↔ s.defect? = none :=
  Option.isSome_eq_false_iff.trans Option.isNone_iff_eq_none

theorem Site.sound_of_find? {sites : List Site} (none : sites.find? isDefective = none) :
    ∀ s ∈ sites, s.defect? = Option.none := by
  intro s member
  refine Site.isDefective_eq_false.1 (Bool.eq_false_of_not_eq_true ?_)
  exact List.find?_eq_none.1 none s member

theorem Site.defect?_group {outer : List Frame} {inverted : Bool} {g : Expression}
    (sound : Site.defect? ⟨outer, .group inverted g⟩ = none) :
    outer.length < maxLevels ∧ g.Filled := by
  simp only [Site.defect?] at sound
  split at sound
  · cases sound
  · rename_i shallow
    split at sound
    · rename_i filled
      exact ⟨Nat.lt_of_not_le shallow, filled⟩
    · cases sound

theorem Site.defect?_ne {s : Site} {err : CodeError} (defect : s.defect? = some err) :
    (∀ access category name, err ≠ .unsupported access category name) ∧
      ∀ m, err ≠ .missingArgument m := by
  unfold Site.defect? at defect
  split at defect
  · cases defect
    simp
  · cases defect
  · split_ifs at defect <;> cases defect <;> simp

theorem Site.emission_group {outer : List Frame} {g : Expression} (room : outer.length < maxLevels)
    (filled : g.Filled) (inverted : Bool) :
    Site.emission ⟨outer, .group inverted g⟩ =
      (Term.emitList g.terms g.id none g.operator.joint?
        (maxLevels - (outer.length + 1))).andThen (.logicIf inverted .not) := by
  have level : maxLevels - outer.length = maxLevels - (outer.length + 1) + 1 := by omega
  simp only [Site.emission, Term.emit, level, Group.emit_of_fits (Group.fits_iff.2 filled)]

/-- Terms that are walked to their ends come first, whatever follows them. -/
theorem Term.emitList_append {before : List Term} {id levels : Nat}
    (clean : ∀ t ∈ before, t.emit id levels = ⟨t.steps, none⟩) (joint later : Option Instruction) :
    ∃ due, ∀ ts, Term.emitList (before ++ ts) id joint later levels =
      Emission.andThen ⟨Term.stepsOfList before joint later, none⟩
        (Term.emitList ts id due later levels) := by
  induction before generalizing joint with
  | nil => exact ⟨joint, fun ts => (Emission.done_andThen _).symm⟩
  | cons t before ih =>
      obtain ⟨first, others⟩ := List.forall_mem_cons.1 clean
      obtain ⟨due, rest⟩ := ih others later
      refine ⟨due, fun ts => ?_⟩
      rw [List.cons_append, Term.emitList_cons, first, rest]
      simp only [Emission.andThen, Term.stepsOfList, List.append_assoc]

theorem Term.sites_subset {inverted : Bool} {g : Expression} {outer : List Frame} {ts : List Term}
    {t : Term} (member : t ∈ ts) (before : List Term) :
    ∃ front back, t.sites (⟨inverted, g, front, back⟩ :: outer) ⊆
      Term.sitesOfList ts inverted g before outer := by
  induction ts generalizing before with
  | nil => cases member
  | cons u later ih =>
      rw [Term.sitesOfList]
      cases member with
      | head => exact ⟨before, later, List.subset_append_left _ _⟩
      | tail _ there =>
          obtain ⟨front, back, inside⟩ := ih there (before ++ [u])
          exact ⟨front, back, List.subset_append_of_subset_right _ inside⟩

theorem Group.sites_eq (g : Expression) (inverted : Bool) (outer : List Frame) :
    g.sites inverted outer = Term.sitesOfList g.terms inverted g [] outer := by
  rcases g with ⟨_, _, _, _, _⟩
  rfl

theorem Group.steps_eq (g : Expression) :
    g.steps = Term.stepsOfList g.terms none g.operator.joint? := by
  rcases g with ⟨_, _, _, _, _⟩
  rfl

/-- Where no site in a term has a defect, all of the term is given out. -/
theorem Term.emission_of_sound {t : Term} {outer : List Frame}
    (sound : ∀ s ∈ t.sites outer, s.defect? = none) :
    Site.emission ⟨outer, t⟩ = ⟨t.steps, none⟩ := by
  induction t using Term.induction generalizing outer with
  | empty inverted => cases sound _ List.mem_cons_self
  | leaf inverted v =>
      have read := Emission.failure_read v
      have invert := Emission.failure_logicIf inverted .not
      simp only [Site.emission, Term.emit, Term.steps, Emission.andThen, read, invert]
  | group inverted g ih =>
      rw [Term.sites, List.forall_mem_cons, Group.sites_eq] at sound
      obtain ⟨here, below⟩ := sound
      obtain ⟨room, filled⟩ := Site.defect?_group here
      have each : ∀ u ∈ g.terms,
          u.emit g.id (maxLevels - (outer.length + 1)) = ⟨u.steps, none⟩ := by
        intro u member
        obtain ⟨front, back, inside⟩ := Term.sites_subset member []
        exact ih u member fun s there => below s (inside there)
      obtain ⟨due, whole⟩ := Term.emitList_append each none g.operator.joint?
      have walked := whole []
      rw [List.append_nil, Term.emitList, Emission.andThen_done] at walked
      rw [Site.emission_group room filled, walked, Term.steps, Group.steps_eq]
      cases inverted <;> rfl

/-- Groups that a walk is inside of. Each had room and enough terms when the walk came into it, and
the terms before the one that the walk is in have been given out. -/
inductive Frame.Passed : List Frame → Prop
  | root : Passed []
  | inside {f : Frame} {outer : List Frame} (passed : Passed outer)
      (room : outer.length < maxLevels)
      (filled : ∀ t, (f.holding t).Filled)
      (given : ∀ t ∈ f.before,
        t.emit f.group.id (maxLevels - (outer.length + 1)) = ⟨t.steps, none⟩) :
      Passed (f :: outer)

/-- A group gives out the terms before, then what the term between gives out. -/
theorem Frame.emission_around {f : Frame} {outer : List Frame} (room : outer.length < maxLevels)
    (filled : ∀ t, (f.holding t).Filled)
    (given : ∀ t ∈ f.before,
      t.emit f.group.id (maxLevels - (outer.length + 1)) = ⟨t.steps, none⟩) :
    ∃ rest, ∀ t, Site.emission ⟨outer, f.around t⟩ =
      Emission.andThen ⟨f.steps, none⟩ ((Site.emission ⟨f :: outer, t⟩).andThen rest) := by
  obtain ⟨due, front⟩ := Term.emitList_append given none f.group.operator.joint?
  refine ⟨(Emission.andThen ⟨due.toList.map .logic, none⟩ (Term.emitList f.later f.group.id
    f.group.operator.joint? f.group.operator.joint? (maxLevels - (outer.length + 1)))).andThen
      (Emission.logicIf f.inverted .not), fun t => ?_⟩
  have group : Site.emission ⟨outer, f.around t⟩ =
      (Term.emitList (f.before ++ t :: f.later) f.group.id none f.group.operator.joint?
        (maxLevels - (outer.length + 1))).andThen (.logicIf f.inverted .not) :=
    Site.emission_group room (filled t) f.inverted
  rw [group, front, Term.emitList_cons, Emission.andThen_assoc, Emission.andThen_assoc]
  rfl

/-- A tree gives out what comes before a site, then what the term there gives out. -/
theorem Frame.emit_rebuild {frames : List Frame} (passed : Passed frames) :
    ∃ rest, ∀ t, (rebuild frames t).emit 0 maxLevels =
      Emission.andThen ⟨Site.preceding ⟨frames, t⟩, none⟩
        ((Site.emission ⟨frames, t⟩).andThen rest) := by
  induction passed with
  | root =>
      refine ⟨.done, fun t => ?_⟩
      rw [Emission.andThen_done]
      exact (Emission.done_andThen _).symm
  | @inside f outer _ room filled given ih =>
      obtain ⟨outside, whole⟩ := ih
      obtain ⟨inside, group⟩ := emission_around room filled given
      refine ⟨inside.andThen outside, fun t => ?_⟩
      -- The innermost group is itself the term of a site, in the groups further out.
      have steps : Site.preceding ⟨f :: outer, t⟩ =
          Site.preceding ⟨outer, f.around t⟩ ++ f.steps := by
        simp [Site.preceding]
      calc (rebuild outer (f.around t)).emit 0 maxLevels
        _ = Emission.andThen ⟨Site.preceding ⟨outer, f.around t⟩, none⟩
              ((Site.emission ⟨outer, f.around t⟩).andThen outside) := whole (f.around t)
        _ = Emission.andThen ⟨Site.preceding ⟨f :: outer, t⟩, none⟩
              ((Site.emission ⟨f :: outer, t⟩).andThen (inside.andThen outside)) := by
          rw [group, steps, Emission.andThen_assoc, Emission.andThen_assoc]
          simp only [Emission.andThen, List.append_assoc]

/-- Where the first defect is among terms, those before have none. -/
theorem Term.first_of_sitesOfList {inverted : Bool} {g : Expression} {outer : List Frame}
    {ts : List Term} {before : List Term} {s : Site}
    (first : (Term.sitesOfList ts inverted g before outer).find? Site.isDefective = some s) :
    ∃ front t back, ts = front ++ t :: back ∧
      (t.sites (⟨inverted, g, before ++ front, back⟩ :: outer)).find? Site.isDefective = some s ∧
      ∀ u ∈ front, u.emit g.id (maxLevels - (outer.length + 1)) = ⟨u.steps, none⟩ := by
  induction ts generalizing before with
  | nil => cases first
  | cons t later ih =>
      rw [Term.sitesOfList, List.find?_append] at first
      cases here : (t.sites (⟨inverted, g, before, later⟩ :: outer)).find? Site.isDefective with
      | some found =>
          rw [here] at first
          cases first
          refine ⟨[], t, later, rfl, ?_, nofun⟩
          rw [List.append_nil]
          exact here
      | none =>
          -- This term is one of those before, and the walk has come out of it.
          rw [here] at first
          obtain ⟨front, u, back, split, found, given⟩ := ih first
          have whole := Term.emission_of_sound (Site.sound_of_find? here)
          refine ⟨t :: front, u, back, congrArg (t :: ·) split, ?_,
            List.forall_mem_cons.2 ⟨whole, given⟩⟩
          rw [List.append_cons]
          exact found

/-- The first defect is in groups that the walk has come into, and they make up the tree. -/
theorem Site.passed_of_first {t : Term} {outer : List Frame} (passed : Frame.Passed outer) {s : Site}
    (first : (t.sites outer).find? Site.isDefective = some s) :
    Frame.Passed s.frames ∧ Frame.rebuild s.frames s.term = Frame.rebuild outer t := by
  induction t using Term.induction generalizing outer with
  | empty inverted =>
      cases first
      exact ⟨passed, rfl⟩
  | leaf inverted v => cases first
  | group inverted g ih =>
      rw [Term.sites, List.find?_cons] at first
      split at first
      · cases first
        exact ⟨passed, rfl⟩
      · rename_i sound
        obtain ⟨room, filled⟩ := Site.defect?_group (Site.isDefective_eq_false.1 sound)
        rw [Group.sites_eq] at first
        obtain ⟨front, u, back, split, found, given⟩ := Term.first_of_sitesOfList first
        have member : u ∈ g.terms := split ▸ List.mem_append_cons_self
        have inside : Frame.Passed (⟨inverted, g, front, back⟩ :: outer) := by
          refine .inside passed room (fun t => filled.refill ?_) given
          simp [split]
        obtain ⟨whole, tree⟩ := ih u member inside found
        refine ⟨whole, tree.trans ?_⟩
        change Frame.rebuild outer (.group inverted { g with terms := front ++ u :: back }) = _
        rw [← split]

theorem Frame.rebuild_root {f : Frame} {outer : List Frame} {t : Term} {e : Expression}
    (whole : rebuild (f :: outer) t = .group false e) (u : Term) :
    ∃ e', rebuild (f :: outer) u = .group false e' := by
  induction outer generalizing f t u with
  | nil =>
      injection whole with upright
      exact ⟨f.holding u, congrArg (Term.group · (f.holding u)) upright⟩
  | cons f' outer ih => exact ih whole (f.around u)

theorem Group.code_eq_emit (e : Expression) (id : Nat) :
    e.code = (Term.group false e).emit id maxLevels :=
  (Emission.andThen_done _).symm

theorem Term.code_asRoot_leaf (inverted : Bool) (v : Variable) (id levels : Nat) :
    (Term.leaf inverted v).asRoot.code = (Term.leaf inverted v).emit id levels :=
  Emission.andThen_done _

/-- With a variable at a site of it, a tree is still a tree, or that variable alone. -/
theorem Site.code_replaced {s : Site} {e : Expression}
    (whole : Frame.rebuild s.frames s.term = .group false e) (inverted : Bool) (v : Variable) :
    (s.replaced (.leaf inverted v)).code =
      (Frame.rebuild s.frames (.leaf inverted v)).emit 0 maxLevels := by
  rcases s with ⟨frames, t⟩
  cases frames with
  | nil => exact Term.code_asRoot_leaf inverted v 0 maxLevels
  | cons f outer =>
      obtain ⟨e', filled⟩ := Frame.rebuild_root whole (.leaf inverted v)
      rw [Site.replaced, filled]
      exact e'.code_eq_emit 0

/-- What is given out is what comes before the first defect, and the failure is that defect. -/
theorem Group.code_of_first {e : Expression} {s : Site}
    (first : e.walk.find? Site.isDefective = some s) : e.code = ⟨s.preceding, s.defect?⟩ := by
  obtain ⟨passed, whole⟩ := Site.passed_of_first .root first
  obtain ⟨rest, emits⟩ := Frame.emit_rebuild passed
  obtain ⟨err, defect⟩ := Site.isDefective_eq_true.1 (List.find?_some first)
  calc e.code
    _ = (Frame.rebuild s.frames s.term).emit 0 maxLevels := by
      rw [whole]
      exact e.code_eq_emit 0
    _ = Emission.andThen ⟨s.preceding, none⟩ (s.emission.andThen rest) := emits s.term
    _ = ⟨s.preceding ++ [], some err⟩ := by
      rw [Site.emission_of_defect defect]
      rfl
    _ = ⟨s.preceding, s.defect?⟩ := by rw [List.append_nil, defect]

/-- With a variable in the place of the first defect, the tree gives out the same before the
variable is read. -/
theorem Group.isPrefix_of_first {e : Expression} {s : Site}
    (first : e.walk.find? Site.isDefective = some s) (inverted : Bool) (v : Variable) :
    s.preceding ++ (Emission.access .read v).operations <+:
      (s.replaced (.leaf inverted v)).code.operations := by
  obtain ⟨passed, whole⟩ := Site.passed_of_first .root first
  obtain ⟨rest, emits⟩ := Frame.emit_rebuild passed
  have code := (Site.code_replaced whole inverted v).trans (emits (.leaf inverted v))
  rw [Site.emission, Term.emit, Emission.andThen_assoc] at code
  rw [code, Emission.andThen_operations _ rfl,
    Emission.andThen_operations _ (Emission.failure_read v)]
  exact ⟨_, List.append_assoc _ _ _⟩

theorem Group.exists_first {e : Expression} {err : CodeError} (failed : e.code.failure = some err) :
    ∃ s, e.walk.find? Site.isDefective = some s ∧ s.defect? = some err := by
  cases first : e.walk.find? Site.isDefective with
  | some s =>
      rw [Group.code_of_first first] at failed
      exact ⟨s, rfl, failed⟩
  | none =>
      have sound := Site.sound_of_find? first
      have clean := congrArg Emission.failure (Term.emission_of_sound sound)
      rw [e.code_eq_emit 0] at failed
      cases failed.symm.trans clean

theorem Group.failure_code_eq_none {e : Expression} :
    e.code.failure = none ↔ e.levels ≤ maxLevels ∧ ∀ g ∈ e.groups, g.Whole := by
  rw [e.code_eq_emit 0, Term.failure_emit_iff, Term.isRegular_iff, and_comm]
  exact and_congr_right fun _ => and_iff_right nofun

/-- A tree compiles just if it is not too deep and all its groups are whole. If it does not, the
failure is the first defect that a walk meets, which is never a missing access or argument. What
was given out by then is the code of the terms before, and the code of the tree with a variable in
the place of the defect starts with it. -/
theorem Group.fails_at_first_defect (e : Expression) :
    ((∃ ops, e.code.toExcept = .ok ops) ↔
      e.levels ≤ 256 ∧ ∀ g ∈ e.groups, g.Whole) ∧
    ∀ err, e.code.toExcept = .error err →
      (∃ s, e.walk.find? Site.isDefective = some s ∧ s.replaced s.term = e ∧
        s.defect? = some err ∧ e.code.operations = s.preceding ∧
        ∀ inverted v, s.preceding ++ (Emission.access .read v).operations <+:
          (s.replaced (.leaf inverted v)).code.operations) ∧
      (∀ access category name, err ≠ .unsupported access category name) ∧
      ∀ m, err ≠ .missingArgument m := by
  constructor
  · refine Iff.trans ?_ Group.failure_code_eq_none
    constructor
    · rintro ⟨ops, compiled⟩
      exact (Emission.toExcept_eq_ok.1 compiled).1
    · intro clean
      exact ⟨_, Emission.toExcept_eq_ok.2 ⟨clean, rfl⟩⟩
  · intro err failed
    obtain ⟨s, first, defect⟩ := Group.exists_first (Emission.toExcept_eq_error.1 failed)
    have tree := congrArg Term.asRoot (Site.passed_of_first .root first).2
    have given := congrArg Emission.operations (Group.code_of_first first)
    exact ⟨⟨s, first, tree, defect, given, Group.isPrefix_of_first first⟩, Site.defect?_ne defect⟩

/-- A tree with an empty term, and after it a timer of nothing. -/
def brokenTree : Expression :=
  let a := Variable.plain "a" .input 0
  let b := Variable.plain "b" .flag 1
  ⟨1, .and,
    [.leaf false a, .group true ⟨2, .or, [.leaf true b, .empty false], none, .assign⟩,
      .group false ⟨3, .timer, [], none, .assign⟩],
    none, .assign⟩

/-- The empty term comes first. The reads before it are given out, with the inversion of the second,
but neither the joint nor the inversion of the group that they are in. -/
theorem fails_at_first_defect_brokenTree :
    brokenTree.code.toExcept = .error (.emptyTerm 2) ∧
      brokenTree.code.operations = [⟨.readInput, 0⟩, ⟨.readFlag, 1⟩, .logic .not] ∧
      ¬(∃ ops, brokenTree.code.toExcept = .ok ops) ∧
      ∃ s, brokenTree.walk.find? Site.isDefective = some s ∧ s.replaced s.term = brokenTree ∧
        s.defect? = some (.emptyTerm 2) ∧ brokenTree.code.operations = s.preceding ∧
        ∀ inverted v, s.preceding ++ (Emission.access .read v).operations <+:
          (s.replaced (.leaf inverted v)).code.operations := by
  have failed : brokenTree.code.toExcept = .error (.emptyTerm 2) := rfl
  obtain ⟨first, -⟩ := (Group.fails_at_first_defect brokenTree).2 _ failed
  refine ⟨failed, rfl, ?_, first⟩
  rintro ⟨ops, compiled⟩
  cases failed.symm.trans compiled

end RelayLogic
