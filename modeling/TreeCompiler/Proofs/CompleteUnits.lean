import TreeCompiler.Proofs.EmittedRules
import TreeCompiler.Proofs.StagedCourses
import TreeCompiler.Proofs.UnitOutcomes

/-!
# Complete validation

A unit that validation gives back is valid all the way down, however much was reported: no
parentheses are left, every expression and type has its type, every name is bound, and every jump
goes to a statement around it. A node becomes valid only once this is noted, and only once its parts
are valid.
-/

namespace TreeCompiler

open Validation

/-- What is left below a valid node is valid and not gone. -/
theorem Work.Staged.passed_of_below {s : Tree} {r top id : NodeId} {w : Work} (hst : w.Staged s r)
    (lk : s.IsLinked r) (hb : s.Below r top) (stays : ¬w.Gone s r top) (hp : w.Passed top)
    (under : w.tree.Below top id) :
    s.Below r id ∧ ¬w.Gone s r id ∧ w.Passed id ∧ (id = top ∨ id.index < top.index) := by
  induction under with
  | root => exact ⟨hb, stays, hp, .inl rfl⟩
  | @child id c _ mem ih =>
    obtain ⟨hb, stays, hp, low⟩ := ih
    obtain ⟨i, lower⟩ := inner_of_child lk hst.peels hb mem
    obtain ⟨old, part, strips⟩ := hst.peels.strips_of_child mem
    refine ⟨i.1, mt (hst.tidy.gone id c hb mem) stays, hst.passed_of_strips (hb.child part) strips
      (hst.parts id old hb hp part), .inr ?_⟩
    rcases low with rfl | low <;> omega

namespace Course

section

variable {c res validated : Course} {cap : Option Nat} {out : Outcome} {root id : NodeId}
  (fresh : c.work.tree.IsFresh c.root) (ranResolve : resolve cap c = .ok out res)

include fresh ranResolve

theorem resolves_of_fresh : c.Resolves c.work.tree c.root res := by
  have reached := (goes_resolve cap (ordered_of_fresh fresh).staged).1
  rwa [ranResolve] at reached

/-- Nothing is valid before validation. -/
theorem unpassed_of_resolve (id : NodeId) : ¬res.work.Passed id := by
  intro passed
  have before := (resolves_of_fresh fresh ranResolve).work.unpassed id passed
  simp [Work.Passed, Tree.stage, fresh.blank, Stage.hasReached, Stage.isUpTo, Stage.rank] at before

variable (ranValidate : validate res = .ok (some root) validated)

include ranValidate

/-- Validation goes on from where resolution ends. -/
theorem moves_of_validate : res.work.Moves c.work.tree c.root (c.root.index + 1)
    (c.root.index + 1) validated.work ∧
    Work.Ended c.work.tree c.root res.work c.root (some root) validated.work := by
  have ran := (kept_of_resolve fresh ranResolve ranValidate).2
  have goes := Validation.goes_validate fresh.toIsLinked
    (resolves_of_fresh fresh ranResolve).work.staged .root fun _ => .root
  have reached := goes.1
  rw [ran] at reached
  exact ⟨reached, goes.2 _ _ ran⟩

/-- What is left of a valid unit was built as a part of it, is valid and is not in parentheses. -/
theorem passed_of_validate (below : validated.work.tree.Below root id) :
    c.work.tree.Below c.root id ∧
    validated.work.Passed id ∧ ∀ i, c.work.tree.expr? id ≠ some (.paren i) := by
  have lk := fresh.toIsLinked
  obtain ⟨moves, ended⟩ := moves_of_validate fresh ranResolve ranValidate
  obtain ⟨-, passedRoot, strips⟩ := ended.passed root rfl
  have bareRoot : ∀ i, c.work.tree.expr? root ≠ some (.paren i) := fun i paren =>
    unpassed_of_resolve fresh ranResolve _ (ended.core root rfl i paren).2
  obtain ⟨under, stays, passed, low⟩ := moves.staged.passed_of_below lk (strips.isBelow .root)
    (fun gone => gone.2.2.elim bareRoot) passedRoot below
  refine ⟨under, passed, fun i paren => ?_⟩
  -- valid parentheses are gone, unless they are around everything
  rcases low with rfl | low
  · exact bareRoot i paren
  · refine stays ⟨fun isRoot => ?_, passed, i, paren⟩
    have high := lk.index_le .root (strips.isBelow .root)
    rw [isRoot] at low
    omega

/-- A jump that is left goes to a statement around it. -/
theorem jump_of_validate {jump : Jump} (bound : (validated.work.tree.facts id).jump = some jump)
    (under : c.work.tree.Below c.root id) (isStmt : (c.work.tree.stmt? id).isSome) :
    jump.target ∈ validated.work.tree.ancestorsInMethod id ∧
    (validated.work.tree.stmt? jump.target).isSome := by
  have lk := fresh.toIsLinked
  have kept := kept_of_validate fresh ranResolve ranValidate
  obtain ⟨hosts, binds, -⟩ := kept.jumps id jump bound
  obtain ⟨around, offers, -⟩ := lk.binds_target under binds
  refine ⟨?_, ?_⟩
  · rwa [kept.peels.ancestorsInMethod_eq lk hosts isStmt]
  · rw [kept.peels.isSome_stmt?]
    exact Option.isSome_of_any offers

end

/-- A unit that is resolved and then valid is complete: every node that is left is valid and not in
parentheses, every expression and every type has its type, a jump goes to a statement around it in
its method, and every name is bound. -/
theorem validated_is_complete (course : Course) (fresh : course.work.tree.IsFresh course.root)
    {cap : Option Nat} {outcome : Outcome} {res validated : Course} {root : NodeId}
    (ranResolve : resolve cap course = .ok outcome res)
    (ranValidate : validate res = .ok (some root) validated) (id : NodeId)
    (below : validated.work.tree.Below root id) : let tree := validated.work.tree
    tree.stage id = .validated ∧ (∀ inner, tree.expr? id ≠ some (.paren inner)) ∧
      ((tree.expr? id).isSome ∨ (tree.type? id).isSome → (tree.facts id).type.isSome) ∧
      (((tree.stmt? id).bind Stmt.jump?).isSome → ∃ jump, (tree.facts id).jump = some jump ∧
        jump.target ∈ tree.ancestorsInMethod id ∧ (tree.stmt? jump.target).isSome) ∧
      (∀ name, tree.expr? id = some (.name name) → (tree.facts id).binding.isSome) := by
  intro tree
  have unpassed := unpassed_of_resolve fresh ranResolve
  have moves := (moves_of_validate fresh ranResolve ranValidate).1
  have peels := moves.staged.peels
  obtain ⟨under, passed, bare⟩ := passed_of_validate fresh ranResolve ranValidate below
  have noted := moves.onward.noted id (fun passed => absurd passed (unpassed id)) passed
  obtain ⟨ren, expr, -⟩ := peels.expr?_eq id
  refine ⟨(Work.passed_iff.mp passed).resolve_right fun sent => ?_, fun inner paren => ?_, ?_, ?_,
    fun name named => ?_⟩
  · exact unpassed id (Work.passed_iff.mpr (.inr (moves.onward.unsent id sent)))
  · obtain ⟨orig, here, eq⟩ := Option.map_eq_some_iff.mp (expr.symm.trans paren)
    cases orig <;> simp [Expr.renamed] at eq
    exact bare _ here
  · rintro (isExpr | isType)
    · rw [expr, Option.isSome_map] at isExpr
      obtain ⟨orig, here⟩ := Option.isSome_iff_exists.mp isExpr
      exact noted.expr orig here fun inner eq => bare inner (eq ▸ here)
    · rw [peels.isSome_type?] at isType
      exact noted.type isType
  · intro isJump
    rw [peels.jump?_eq] at isJump
    obtain ⟨aim, isAim⟩ := Option.isSome_iff_exists.mp isJump
    obtain ⟨stmt, here, isJump⟩ := Option.bind_eq_some_iff.mp isAim
    obtain ⟨jump, bound⟩ := Option.isSome_iff_exists.mp (noted.jump stmt here (by simp [isJump]))
    exact ⟨jump, bound, jump_of_validate fresh ranResolve ranValidate bound under (by simp [here])⟩
  · obtain ⟨orig, here, eq⟩ := Option.map_eq_some_iff.mp (expr.symm.trans named)
    cases orig <;> simp [Expr.renamed] at eq
    exact noted.name _ here

end Course

/-- The statement that leaves the loop is bound to one around it. -/
theorem leavingUnit_is_complete : ∃ outcome res root validated jump,
    Course.resolve none (Session.courseOf {} {} leavingUnit ⟨13⟩) = .ok outcome res ∧
    Course.validate res = .ok (some root) validated ∧ validated.work.tree.Below root ⟨6⟩ ∧
    (validated.work.tree.facts ⟨6⟩).jump = some jump ∧
    jump.target ∈ validated.work.tree.ancestorsInMethod ⟨6⟩ := by
  obtain ⟨start, after, isRoot, ran, -, -⟩ := Session.compile_emitted leavingUnit_emitted
  obtain rfl : ⟨13⟩ = start := Option.some.inj isRoot
  obtain ⟨outcome, res, root, validated, ranResolve, ranValidate, -, -⟩ := Course.run_ok ran
  have fresh := leavingUnit_isFresh
  have peels := (Course.kept_of_validate fresh ranResolve ranValidate).peels
  obtain rfl : root = ⟨13⟩ := (Course.strips_of_validate fresh ranResolve ranValidate).eq_of_stmt rfl
  have inner : ∀ {a b : NodeId}, b ∈ leavingUnit.children a → (leavingUnit.stmt? b).isSome →
      validated.work.tree.Below ⟨13⟩ a → validated.work.tree.Below ⟨13⟩ b :=
    fun mem isStmt below => below.child (peels.mem_children_of_stmt mem isStmt)
  have loop : validated.work.tree.Below ⟨13⟩ ⟨9⟩ := inner (a := ⟨10⟩) (by decide) rfl
    (inner (a := ⟨12⟩) (by decide) rfl (inner (by decide) rfl .root))
  have below : validated.work.tree.Below ⟨13⟩ ⟨6⟩ := inner (a := ⟨7⟩) (by decide) rfl
    (inner (a := ⟨8⟩) (by decide) rfl (inner (by decide) rfl loop))
  obtain ⟨jump, bound, around, -⟩ := (Course.validated_is_complete _ fresh ranResolve
    ranValidate ⟨6⟩ below).2.2.2.1 (by rw [peels.jump?_eq]; rfl)
  exact ⟨outcome, res, ⟨13⟩, validated, jump, ranResolve, ranValidate, below, bound, around⟩

end TreeCompiler
