import RelayLogic.Proofs.Phrase

/-! What a draft has settled. Behind each draft stand the segments that are cut off already and the
terms of the segment that is still open. Taking a term changes these as the sign after it says, and
closing the draft gives the tree of all segments. -/
namespace RelayLogic

theorem Term.unnumberedList_eq_map (ts : List Term) :
    Term.unnumberedList ts = ts.map Term.unnumbered := by
  induction ts with
  | nil => rfl
  | cons t rest ih => rw [Term.unnumberedList, ih, List.map_cons]

theorem Group.unnumbered_anonymous (id : Nat) (operator : Operator) (ts : List Term) :
    (Group.anonymous id operator ts).unnumbered =
      .anonymous 0 operator (ts.map Term.unnumbered) := by
  rw [Group.anonymous, Group.unnumbered, Term.unnumberedList_eq_map]
  rfl

theorem Term.unnumbered_invert (t : Term) : t.invert.unnumbered = t.unnumbered.invert := by
  cases t <;> rfl

theorem Term.ofSegment_append_singleton {ts : List Term} (h : ts ≠ []) (t : Term) :
    Term.ofSegment (ts ++ [t]) = .group false (.anonymous 0 .and (ts ++ [t])) := by
  rcases ts with _ | ⟨a, _ | ⟨b, rest⟩⟩
  · exact absurd rfl h
  · rfl
  · rfl

theorem Group.ofSegments_and {ts : List Term} (h : ts ≠ []) (t : Term) :
    Group.ofSegments [ts ++ [t]] = .anonymous 0 .and (ts ++ [t]) := by
  rcases ts with _ | ⟨a, rest⟩
  · exact absurd rfl h
  · cases rest <;> rfl

theorem Group.ofSegments_append_singleton {segments : List (List Term)} (h : segments ≠ [])
    (segment : List Term) :
    Group.ofSegments (segments ++ [segment]) =
      .anonymous 0 .or (segments.map Term.ofSegment ++ [Term.ofSegment segment]) := by
  rcases segments with _ | ⟨a, rest⟩
  · exact absurd rfl h
  · cases rest <;> simp [Group.ofSegments]

theorem extendFirst_extendFirst (ts us : List Term) (segments : List (List Term)) :
    extendFirst ts (extendFirst us segments) = extendFirst (ts ++ us) segments := by
  cases segments <;> simp [extendFirst]

theorem extendFirst_nil {segments : List (List Term)} (h : segments ≠ []) :
    extendFirst [] segments = segments := by
  cases segments with
  | nil => exact absurd rfl h
  | cons segment more => rfl

theorem Phrase.segments_ne_nil (p : Phrase) : p.segments ≠ [] := by
  rcases p with o | ⟨o, _ | _, rest⟩
  · exact List.cons_ne_nil _ _
  · rw [Phrase.segments]
    cases rest.segments <;> exact List.cons_ne_nil _ _
  · exact List.cons_ne_nil _ _

namespace Draft

/-- `d.Holds done opened`: the terms taken so far make up the segments `done`, which are cut off,
and the segment `opened`, which may go on. -/
inductive Holds : Draft → List (List Term) → List Term → Prop
  | start (id lastId : Nat) : Holds ⟨.anonymous id .none [], none, lastId⟩ [] []
  | and {id lastId : Nat} {ts : List Term} : ts ≠ [] →
      Holds ⟨.anonymous id .and ts, none, lastId⟩ [] (ts.reverse.map Term.unnumbered)
  | or {id lastId : Nat} {ts : List Term} {done : List (List Term)} : done ≠ [] →
      ts.reverse.map Term.unnumbered = done.map Term.ofSegment →
      Holds ⟨.anonymous id .or ts, none, lastId⟩ done []
  | tight {id inner lastId : Nat} {ts us : List Term} {done : List (List Term)} : done ≠ [] →
      ts.reverse.map Term.unnumbered = done.map Term.ofSegment → us ≠ [] →
      Holds ⟨.anonymous id .or ts, some (.anonymous inner .and us), lastId⟩ done
        (us.reverse.map Term.unnumbered)

theorem Holds.renumber {d : Draft} {done : List (List Term)} {opened : List Term}
    (h : d.Holds done opened) (lastId : Nat) : { d with lastId }.Holds done opened := by
  cases h with
  | start => exact .start _ _
  | and some => exact .and some
  | or some same => exact .or some same
  | tight some same more => exact .tight some same more

variable {d : Draft} {done : List (List Term)} {opened : List Term}

theorem unnumbered_put (t : Term) (ts : List Term) :
    (t :: ts).reverse.map Term.unnumbered = ts.reverse.map Term.unnumbered ++ [t.unnumbered] := by
  simp

theorem ne_nil_of_terms {ts : List Term} (h : ts ≠ []) :
    ts.reverse.map Term.unnumbered ≠ [] := by simpa using h

section

variable {id inner lastId : Nat} {ts us : List Term}

theorem extend_same (t : Term) (operator : Operator) :
    extend ⟨.anonymous id operator ts, none, lastId⟩ t operator =
      ⟨.anonymous id operator (t :: ts), none, lastId⟩ := by
  simp [extend, Group.anonymous, put]

theorem extend_stronger (h : ts ≠ []) (t : Term) :
    extend ⟨.anonymous id .or ts, none, lastId⟩ t .and =
      ⟨.anonymous id .or ts, some (.anonymous (lastId + 1) .and [t]), lastId + 1⟩ := by
  simp [extend, Group.anonymous, Group.isEmpty, Operator.strength, h]

theorem extend_weaker (h : ts ≠ []) (t : Term) :
    extend ⟨.anonymous id .and ts, none, lastId⟩ t .or =
      ⟨.anonymous (lastId + 1) .or [.group false (.anonymous id .and (t :: ts).reverse)], none,
        lastId + 1⟩ := by
  simp [extend, Group.anonymous, Group.isEmpty, Operator.strength, h, settled, put]

theorem extend_interrupted (t : Term) :
    extend ⟨.anonymous id .or ts, some (.anonymous inner .and us), lastId⟩ t .or =
      ⟨.anonymous id .or (.group false (.anonymous inner .and (t :: us).reverse) :: ts), none,
        lastId⟩ := by
  simp [extend, Group.anonymous, settled, put]

end

/-- A settled group of several terms is the one term of its segment. -/
theorem unnumbered_settled {us : List Term} (h : us ≠ []) (id : Nat) (t : Term) :
    (Term.group false (.anonymous id .and (t :: us).reverse)).unnumbered =
      Term.ofSegment (us.reverse.map Term.unnumbered ++ [t.unnumbered]) := by
  rw [Term.ofSegment_append_singleton (ne_nil_of_terms h), ← unnumbered_put, Term.unnumbered,
    Group.unnumbered_anonymous]

theorem Holds.extend_and (h : d.Holds done opened) (t : Term) :
    (d.extend t .and).Holds done (opened ++ [t.unnumbered]) := by
  cases h with
  | start id lastId => exact .and (List.cons_ne_nil t [])
  | and some =>
      rw [← unnumbered_put, extend_same]
      exact .and (List.cons_ne_nil t _)
  | or some same =>
      rw [extend_stronger (by rintro rfl; exact some (List.map_eq_nil_iff.1 same.symm))]
      exact .tight some same (List.cons_ne_nil t [])
  | tight some same more =>
      rw [← unnumbered_put]
      exact .tight some same (List.cons_ne_nil t _)

theorem Holds.extend_or (h : d.Holds done opened) (t : Term) :
    (d.extend t .or).Holds (done ++ [opened ++ [t.unnumbered]]) [] := by
  have more : done ++ [opened ++ [t.unnumbered]] ≠ [] := by simp
  cases h with
  | start id lastId => exact .or more rfl
  | and some =>
      rw [extend_weaker some]
      refine .or more ?_
      rw [List.reverse_singleton, List.map_singleton, unnumbered_settled some]
      rfl
  | or some same =>
      rw [extend_same]
      refine .or more ?_
      rw [unnumbered_put, same, List.map_append]
      rfl
  | tight some same strong =>
      rw [extend_interrupted]
      refine .or more ?_
      rw [unnumbered_put, same, List.map_append, unnumbered_settled strong]
      rfl

theorem Holds.close (h : d.Holds done opened) (t : Term) :
    (d.close t).unnumbered = .ofSegments (done ++ [opened ++ [t.unnumbered]]) := by
  cases h with
  | start id lastId => rfl
  | @and id lastId ts some =>
      rw [← unnumbered_put]
      change (Group.anonymous id .and (t :: ts).reverse).unnumbered = _
      rw [Group.unnumbered_anonymous, unnumbered_put]
      exact (Group.ofSegments_and (ne_nil_of_terms some) _).symm
  | @or id lastId ts done some same =>
      change (Group.anonymous id .or (t :: ts).reverse).unnumbered = _
      rw [Group.unnumbered_anonymous, Group.ofSegments_append_singleton some, unnumbered_put, same]
      rfl
  | @tight id inner lastId ts us done some same more =>
      change (Group.anonymous id .or
        (.group false (.anonymous inner .and (t :: us).reverse) :: ts).reverse).unnumbered = _
      rw [Group.unnumbered_anonymous, Group.ofSegments_append_singleton some, unnumbered_put, same,
        unnumbered_settled more]

/-- Whatever phrase follows an operand and a sign, its segments come to stand where they belong. -/
theorem Holds.extend (h : d.Holds done opened) {t : Term} {o : Operand}
    (same : t.unnumbered = o.term) (sign : Joiner) :
    ∃ done' opened', (d.extend t sign.operator).Holds done' opened' ∧
      ∀ rest : Phrase, done' ++ extendFirst opened' rest.segments =
        done ++ extendFirst opened (Phrase.join o sign rest).segments := by
  cases sign with
  | and =>
      refine ⟨_, _, h.extend_and t, fun rest => ?_⟩
      rw [same, Phrase.segments, extendFirst_extendFirst]
  | or =>
      refine ⟨_, _, h.extend_or t, fun rest => ?_⟩
      rw [same, Phrase.segments, extendFirst_nil rest.segments_ne_nil, List.append_assoc]
      rfl

end Draft

end RelayLogic
