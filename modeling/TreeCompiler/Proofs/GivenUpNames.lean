import TreeCompiler.Proofs.LeastFixpoint

/-!
# Names that are given up

Only names and named types are ever put off, each once if no node of the unit occurs twice. When
sweeps end, what is left fails. It is reported under its own name, once, or it is excused, and then
a chain of aliases leads to what was reported or could not be completed anyway.
-/

namespace TreeCompiler

open Step

variable {sc : String} {id : NodeId} {ids : List NodeId} {w after : Work} {rest : Resolution.Rest}

namespace Resolution

/-- Only names and named types are put off. -/
theorem isDeferrable_of_resolveNode {prog : Progress}
    (ran : resolveNode sc id w = .ok prog after) (late : prog ≠ .done) :
    w.tree.isDeferrable id = true := by
  replace ran := rest_ok ran rfl
  unfold Tree.isDeferrable
  cases hf : w.tree.form? id with
  | none =>
    rw [hf] at ran
    exact absurd (pure_ok.mp ran).1.symm late
  | some form =>
    rw [hf] at ran
    cases form with
    | type ty =>
      replace ran := rest_ok ran rfl
      rw [show w.tree.type? id = some ty by simp [Tree.type?, hf, Form.type?]] at ran
      cases ty with
      | named => rfl
      | tuple | nullable | bad => exact absurd (pure_ok.mp ran).1.symm late
      | keyword word =>
        dsimp only at ran
        cases category : word.category? with
        | none =>
          rw [category] at ran
          exact absurd ran (by simp)
        | some category' =>
          rw [category] at ran
          obtain ⟨ty, pooled, -, ran⟩ := bind_ok.mp ran
          exact absurd (bind_pure_ok.mp ran).choose_spec.2.symm late
    | expr expr =>
      cases expr with
      | name => rfl
      | _ => exact absurd (pure_ok.mp ran).1.symm late
    | _ => exact absurd (pure_ok.mp ran).1.symm late

theorem isDeferrable_of_visit {prog : Progress} (ran : visit sc id w = .ok prog after)
    (late : prog ≠ .done) : w.tree.isDeferrable id = true := by
  replace ran := rest_ok ran rfl
  obtain ⟨x, now, tried, ran⟩ := bind_ok.mp ran
  obtain rfl : x = prog := by
    obtain ⟨stage, eq, -, ran⟩ := bind_ok.mp ran
    split at ran
    · exact (bind_pure_ok.mp ran).choose_spec.2
    · exact (pure_ok.mp ran).1
  have asks : (w.tree.setStage id .resolving).isDeferrable id = true :=
    isDeferrable_of_resolveNode tried late
  rwa [Tree.isDeferrable, Tree.setStage, Tree.form?_modify] at asks

theorem resolutionInvariant_shape (s : Tree) : ResolutionInvariant fun w => s.SameShape w.tree :=
  .of_facts ⟨fun _ _ shape => shape, fun _ _ _ shape => shape⟩
    (fun _ _ _ shape _ => shape.trans (.modifyFacts ..)) fun _ _ shape => shape

/-- What a sweep defers are names and named types, in the order it found them. -/
theorem deferred_sublist {s : Tree} (shape : s.SameShape w.tree)
    (ran : visitAll sc ids w = .ok rest after) :
    rest.deferred.Sublist (ids.filter s.isDeferrable) := by
  induction ids generalizing w rest with
  | nil =>
    cases ran
    exact .slnil
  | cons id ids ih =>
    have less := (List.sublist_cons_self id ids).filter s.isDeferrable
    replace ran := rest_ok ran rfl
    split at ran
    · exact (ih shape ran).trans less
    · obtain ⟨prog, mid, seen, ran⟩ := bind_ok.mp ran
      have hf : ∀ {others : Rest}, others.deferred.Sublist (ids.filter s.isDeferrable) →
          (others.after id prog).deferred.Sublist ((id :: ids).filter s.isDeferrable) := by
        intro others hi
        by_cases isDone : prog = .done
        · rw [isDone]
          exact hi.trans less
        · have asks := isDeferrable_of_visit seen isDone
          rw [Tree.isDeferrable, shape.form, ← Tree.isDeferrable] at asks
          rw [List.filter_cons_of_pos asks]
          cases prog <;> simp_all [Rest.after]
      replace ran := rest_ok ran rfl
      split at ran
      · cases ran
        exact hf (List.nil_sublist _)
      · obtain ⟨others, swept, rfl⟩ := bind_pure_ok.mp ran
        exact hf (ih (((resolutionInvariant_shape s).always_visit sc id).keeps w _ mid shape seen) swept)

end Resolution

namespace Course

variable {course after : Course} {cap : Option Nat} {outcome : Outcome}

/-- Sweeps never put off a node that they did not before. -/
theorem Sweeping.pending_sublist {left : Nat} {course after : Course}
    (run : Sweeping left course outcome after) : after.pending.Sublist course.pending := by
  have step : ∀ {course mid : Course} {waiting}, sweep course.pending course = .ok waiting mid →
      mid.pending.Sublist course.pending := by
    intro course mid waiting swept
    obtain ⟨rest, w, ran, -, rfl⟩ := sweep_ok.mp swept
    exact (Resolution.deferred_sublist (.refl _) ran).trans List.filter_sublist
  induction run with
  | complete | limit => exact .refl _
  | stuck _ swept _ => exact step swept
  | again _ swept _ _ ih => exact ih.trans (step swept)

theorem Sweeps.sameShape {ended : Course} (run : course.Sweeps cap outcome ended) :
    course.work.tree.SameShape ended.work.tree := by
  obtain ⟨waiting, swept, fst, run⟩ := run
  have inv := Resolution.resolutionInvariant_shape course.work.tree
  have step : ∀ {ids} {b mid : Course} {waiting}, sweep ids b = .ok waiting mid →
      course.work.tree.SameShape b.work.tree → course.work.tree.SameShape mid.work.tree :=
    fun {ids b mid waiting} swept shape =>
      ((always_sweep inv.always_visitAll _).keeps b waiting mid ⟨shape, rfl⟩ swept).1
  have shape := step fst (.refl _)
  clear fst
  generalize course.sweepLimit cap - swept.sweeps = left at run
  induction run with
  | complete | limit => exact shape
  | stuck _ swept _ => exact step swept shape
  | again _ swept _ _ ih => exact ih (step swept shape)

theorem Sweeps.pending_sublist {ended : Course} (run : course.Sweeps cap outcome ended) :
    ended.pending.Sublist
      ((course.work.tree.preorder course.root).filter course.work.tree.isDeferrable) := by
  obtain ⟨waiting, swept, fst, run⟩ := run
  obtain ⟨rest, w, ran, -, rfl⟩ := sweep_ok.mp fst
  exact run.pending_sublist.trans (Resolution.deferred_sublist (.refl _) ran)

/-- When resolution gives up, what is left has failed. A leftover that is not excused is reported
once, with its name and where it stands, and an excused one is not; nothing else is reported. Uses
of aliases that depend on themselves are not excused, and from each excused one a chain of aliases
leads to a leftover that is reported, or to a node that cannot be completed or had failed before. -/
theorem leftovers_reported_or_traced (course : Course) (fresh : course.outcome = none)
    (present : ∀ id ∈ course.work.tree.preorder course.root, course.work.tree.Has id)
    (distinct : (course.work.tree.preorder course.root).Nodup) (cap : Option Nat)
    (outcome : Outcome) (after : Course) (ran : resolve cap course = .ok outcome after) :
    ∃ ended, course.Sweeps cap outcome ended ∧ ended.pending.Nodup ∧
      (∀ id ∈ ended.pending, after.work.tree.stage id = .failed) ∧
      after.work.sink = ((ended.pending.filter fun id => id ∉ ended.work.tree.cascaded ended.pending).map
        fun id => .errorAt .nameUnresolvable [ended.work.tree.unresolvedName id]
          (ended.work.tree.span id)).foldl (fun sink diag => sink.report diag) ended.work.sink ∧
      (∀ id, Relation.TransGen (ended.work.tree.DependsOn ended.pending) id id →
        id ∉ ended.work.tree.cascaded ended.pending) ∧
      ∀ id ∈ ended.work.tree.cascaded ended.pending, ∃ cause,
        Relation.TransGen (ended.work.tree.DependsOn ended.pending) id cause ∧
          (cause ∈ ended.pending ∧ cause ∉ ended.work.tree.cascaded ended.pending ∨
            ended.work.tree.completable cause = false ∨ ended.work.tree.stage cause = .failed) := by
  obtain ⟨ended, w, run, gaveUp, rfl⟩ := sweeps_of_resolve fresh ran
  have within := run.pending_sublist.trans List.filter_sublist
  rw [Resolution.giveUp_eq] at gaveUp
  cases gaveUp
  refine ⟨ended, run, within.nodup distinct, fun id left => ?_, ?_, fun id => Tree.not_cascaded_of_cycle,
    Tree.cascaded_leads⟩
  · refine Resolution.stage_failed_of_mem _ ?_ left
    exact (run.sameShape.has id).mpr (present id (within.subset left))
  · simp only [List.contains_eq_mem, decide_not]
    rfl

end Course

/-- A unit that uses an alias of an alias of a name that nothing defines, and an alias that is
defined by itself. -/
def chainedUnit : Tree where
  nodes := #[{ form := .type (.named ["A"] []), parent := some ⟨1⟩ },
    { form := .stmt (.varDecl ⟨0⟩ "a" none), parent := some ⟨8⟩ },
    { form := .type (.named ["B"] []), parent := some ⟨3⟩ },
    { form := naming "A" ⟨2⟩, parent := some ⟨8⟩ },
    { form := .type (.named ["Gone"] []), parent := some ⟨5⟩ },
    { form := naming "B" ⟨4⟩, parent := some ⟨8⟩ },
    { form := .type (.named ["C"] []), parent := some ⟨7⟩ },
    { form := naming "C" ⟨6⟩, parent := some ⟨8⟩ },
    { form := .stmt (.block [⟨1⟩, ⟨3⟩, ⟨5⟩, ⟨7⟩]), parent := some ⟨9⟩ },
    { form := .stmt (.method "run" [] [] ⟨8⟩) }]
  root := some ⟨9⟩

/-- All four names fail, and only the one that nothing defines and the one that is defined by itself
are reported. -/
theorem chainedUnit_ends : ∃ after,
    Course.resolve none (Session.courseOf {} {} chainedUnit ⟨9⟩) = .ok (.noProgress 2 4) after ∧
      after.work.sink.entries.map (·.args) = [["Gone"], ["C"]] ∧
      ∀ i ∈ [0, 2, 4, 6], after.work.tree.stage ⟨i⟩ = .failed := by
  have ends : Step.succeeds (Course.resolve none) (Session.courseOf {} {} chainedUnit ⟨9⟩) (fun outcome after =>
      decide (outcome = .noProgress 2 4 ∧ after.work.sink.entries.map (·.args) = [["Gone"], ["C"]] ∧
        ∀ i ∈ ([0, 2, 4, 6] : List Nat), after.work.tree.stage ⟨i⟩ = .failed)) = true := by decide +kernel
  obtain ⟨outcome, after, ran, ends⟩ := Step.succeeds_iff.mp ends
  obtain ⟨rfl, reports⟩ := of_decide_eq_true ends
  exact ⟨after, ran, reports⟩

theorem chainedUnit_has : ∀ id ∈ chainedUnit.preorder ⟨9⟩, chainedUnit.Has id := by
  have hi : ∀ id ∈ chainedUnit.preorder ⟨9⟩, id.index < chainedUnit.size := by decide
  exact fun id mem => chainedUnit.has_iff_lt.mpr (hi id mem)

/-- Whatever is not reported leads to what is. -/
theorem chainedUnit_traced : ∃ after,
    Course.resolve none (Session.courseOf {} {} chainedUnit ⟨9⟩) = .ok (.noProgress 2 4) after ∧
      after.work.sink.entries.map (·.args) = [["Gone"], ["C"]] ∧
      (∀ index ∈ [0, 2, 4, 6], after.work.tree.stage ⟨index⟩ = .failed) ∧
      ∃ ended, (Session.courseOf {} {} chainedUnit ⟨9⟩).Sweeps none (.noProgress 2 4) ended ∧
        ∀ id ∈ ended.work.tree.cascaded ended.pending, ∃ cause,
          Relation.TransGen (ended.work.tree.DependsOn ended.pending) id cause ∧
            (cause ∈ ended.pending ∧ cause ∉ ended.work.tree.cascaded ended.pending ∨
              ended.work.tree.completable cause = false ∨ ended.work.tree.stage cause = .failed) := by
  obtain ⟨after, ran, reports, failed⟩ := chainedUnit_ends
  obtain ⟨ended, run, -, -, -, -, traced⟩ := Course.leftovers_reported_or_traced _ rfl chainedUnit_has
    (by decide) none _ after ran
  exact ⟨after, ran, reports, failed, ended, run, traced⟩

end TreeCompiler
