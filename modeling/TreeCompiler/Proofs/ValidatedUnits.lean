import TreeCompiler.Proofs.QuietStatements

/-!
# Units validated without a report

A unit that is resolved and validated without a report is valid, unless it uses a declaring
condition of a `for` loop in the first part of the loop. What resolution gives up on cannot be the
reason: the use of an alias stands in the block of the alias, so that the alias is visited as well,
and the causes of its failure end with one that is reported.
-/

namespace TreeCompiler

open Step Validation WorkM

/-- A unit as it is built: fresh, with every node in one place, and only text that is no type cannot
be completed. -/
structure Tree.IsBuilt (tree : Tree) (r : NodeId) : Prop extends tree.IsFresh r where
  present : tree.Has r
  distinct : ∀ id, tree.Below r id → (tree.children id).Nodup
  complete : ∀ id, tree.Below r id → tree.completable id = false → ∃ text, tree.type? id = some (.bad text)

/-- A fresh tree is a unit as it is built if its table says so: no node lists a child twice, and all
are complete. -/
theorem Tree.isBuilt_of_table {tree : Tree} {r : NodeId} (fresh : tree.IsFresh r) (hp : tree.Has r)
    (table : ∀ i < tree.size, (tree.children ⟨i⟩).Nodup ∧ tree.completable ⟨i⟩ = true) :
    tree.IsBuilt r := by
  have hi : ∀ id, tree.Below r id → id.index < tree.size := fun id hb =>
    fresh.toIsLinked.index_lt_size hb hp
  refine ⟨fresh, hp, fun id hb => (table id.index (hi id hb)).1, ?_⟩
  intro id hb incomplete
  have complete : tree.completable id = true := (table id.index (hi id hb)).2
  rw [complete] at incomplete
  simp at incomplete

namespace Outset

variable {o : Outset} {b w t : Work} {id : NodeId}

theorem type?_of_cascaded {tree : Tree} {lefts : List NodeId} (shape : o.tree.SameShape tree)
    (excused : id ∈ tree.cascaded lefts) : (o.tree.type? id).isSome := by
  obtain ⟨-, ty, aliased, -⟩ := Tree.mem_cascaded excused
  obtain ⟨name, ps, -, -, isNamed, -, -⟩ := Tree.aliasedType?_eq_some aliased
  rw [← shape.type?, isNamed]
  rfl

theorem fair_of_built (built : o.tree.IsBuilt o.root)
    (ready : w.Ready o.tree o.root o.denoted o.left) : o.Fair where
  linked := built.toIsLinked
  present := built.present
  distinct := built.distinct
  complete := built.complete
  types id left := by
    obtain ⟨tree, shape, -, excused⟩ := ready.excused
    exact type?_of_cascaded shape (excused id left)

section

variable (ready : w.Ready o.tree o.root o.denoted o.left)

include ready

theorem mem_left_of_ready {stage : Stage} (here : w.tree.stage id = stage)
    (late : stage.isUpTo .resolved = false) : id ∈ o.left := by
  by_contra out
  have early := ready.early id out
  rw [here, late] at early
  simp at early

theorem not_valid_of_ready : ¬w.Valid id := by
  intro valid
  have hx := ready.failed id (mem_left_of_ready ready valid rfl)
  rw [show w.tree.stage id = .validated from valid] at hx
  simp at hx

theorem not_begun_of_ready : ¬o.Begun w id := by
  rintro ⟨out, validating | hx | valid⟩
  · exact out (mem_left_of_ready ready validating rfl)
  · exact out (mem_left_of_ready ready hx rfl)
  · exact not_valid_of_ready ready valid

/-- Validation finds a unit that nothing has been done to but what resolution does. -/
theorem checked_of_ready : o.Checked w := by
  refine ⟨ready.shape.size, fun id _ => ready.shape.form id, ready.shape.type?,
    fun id _ => ready.shape.parent id, fun id c _ _ begun => absurd begun (not_begun_of_ready ready),
    ?_, ready.failed, fun id hx => .inl (mem_left_of_ready ready hx rfl), ready.answers, ?_,
    fun id _ valid => absurd valid (not_valid_of_ready ready), ?_,
    fun id c _ _ valid => absurd valid (not_valid_of_ready ready)⟩
  · intro id emitted
    have hx := ready.failed id (mem_left_of_ready ready emitted rfl)
    rw [emitted] at hx
    simp at hx
  · intro id hb out past
    exact absurd ⟨out, .inr past⟩ (not_begun_of_ready ready)
  · intro id c mem
    rw [ready.shape.children] at mem
    exact .inl mem

theorem visited_validate (fair : o.Fair) {ans : Option NodeId}
    (ran : validate o.root w = .ok ans t) (quiet : ¬t.Loud) : o.Visited o.root w ans.isSome t := by
  have turn : o.Turn o.root w := by
    refine ⟨checked_of_ready ready, .root, ?_, not_begun_of_ready ready⟩
    rw [fair.linked.ancestors_root]
    simp
  have sc : o.Scope w o.root := by
    intro use name decl _ _ _ hv
    rw [fair.linked.findLocal_root] at hv
    simp at hv
  have hosted : o.Hosted o.root := by
    intro par hb mem
    have up := fair.linked.linked par o.root hb mem
    rw [fair.linked.top] at up
    simp at up
  replace ran := rest_ok ran rfl
  have sees := sees_validatorWithin fair w.tree.fuel
  replace ran := rest_ok ran rfl
  generalize w.tree.form? o.root = form at ran
  split at ran
  · exact (sees.exprs.visit turn sc hosted ran quiet).1
  · obtain ⟨ty, ranType, rfl⟩ := bind_pure_ok.mp ran
    rw [Option.isSome_map]
    exact (sees.types.visit turn ranType quiet).1
  · exact sees.stmts turn sc ran quiet
  · exact sees.stmts turn sc ran quiet

end

/-- Once validation is done with everything it has begun, nothing is excused by what resolution gave
up on. -/
theorem Checked.not_sunk (fair : o.Fair) (ready : b.Ready o.tree o.root o.denoted o.left)
    (hc : o.Checked w) (ended : ∀ id, w.tree.stage id ≠ .validating) :
    ∀ id ∈ o.left, ¬∀ ancestor ∈ o.tree.ancestors id, o.Begun w ancestor := by
  obtain ⟨tree, shape, unfailed, excused⟩ := ready.excused
  refine fun id left => Tree.cascade_induction
    (P := fun id => ¬∀ ancestor ∈ o.tree.ancestors id, o.Begun w ancestor)
    (fun id left ty aliased failing ih path => ?_) id (excused id left)
  obtain ⟨name, qs, typedef, defined, isNamed, hv, isTypedef⟩ :=
    Tree.aliasedType?_eq_some aliased
  rw [shape.stmt?] at isTypedef
  rw [shape.findTypedef] at hv
  obtain ⟨block, around, stmts, type', isBlock, mem, -⟩ := Tree.findTypedef_eq_some hv
  have above := Tree.ancestorsInMethod_subset around
  have hb := (fair.linked.below_of_mem_ancestors (ready.inside id left) above).1
  have past : ∀ x, o.Begun w x → w.Over x := by
    rintro x ⟨-, validating | past⟩
    · exact absurd validating (ended x)
    · exact past
  have kept : ∀ {x stmt}, o.tree.stmt? x = some stmt → x ∉ o.left := by
    intro x stmt hs hi
    have ht := fair.types x hi
    simp [type?_eq_none_of_stmt hs] at ht
  -- the block of the alias is done with, and so are its statements
  have isChild : typedef ∈ o.tree.children block := by
    rw [o.tree.children_of_stmt isBlock]
    exact mem
  have defined : w.Over typedef :=
    (hc.closed block hb (kept isBlock) (past block (path block above))).block stmts isBlock typedef mem
  have belowTypedef := hb.child isChild
  have belowType : o.tree.Below o.root ty := by
    refine belowTypedef.child ?_
    rw [o.tree.children_of_stmt isTypedef]
    simp [Stmt.children]
  have ps : ∀ {part}, part ∈ tree.preorder ty ↔ o.tree.Below ty part := by
    rw [shape.preorder]
    exact fair.linked.mem_preorder_iff belowType fair.present
  rcases (hc.closed typedef belowTypedef (kept isTypedef) defined).typedef _ ty isTypedef with
    valid | ⟨part, leftPart, under, pathPart⟩
  · obtain ⟨part, hx⟩ := List.exists_mem_of_ne_nil _ failing
    obtain ⟨hi, reason⟩ := Tree.mem_failingParts.mp hx
    have under := ps.mp hi
    have validPart := hc.valid_below belowType valid under
    rcases reason with leftPart | incomplete | hx
    · have hx := hc.left part leftPart
      rw [show w.tree.stage part = .validated from validPart] at hx
      simp at hx
    · rw [shape.completable] at incomplete
      obtain ⟨text, bad⟩ := fair.complete part (belowType.trans under) incomplete
      exact ((hc.valid part (belowType.trans under) validPart).type _ bad).1 text rfl
    · exact unfailed part hx
  · exact ih part (excused part leftPart) (ps.mpr under) pathPart

/-- A unit that is validated without a report fails only if it uses a declaring condition early. -/
theorem usesEarly_of_validate (fair : o.Fair) (ready : w.Ready o.tree o.root o.denoted o.left)
    (ran : validate o.root w = .ok none t) (quiet : ¬t.Loud) : o.tree.UsesEarly o.root := by
  have seen := visited_validate ready fair ran quiet
  have ended : ∀ id, t.tree.stage id ≠ .validating := by
    intro id validating
    by_cases isRoot : id = o.root
    · subst isRoot
      rcases seen.past with hx | valid
      · simp [hx] at validating
      · simp [show t.tree.stage o.root = .validated from valid] at validating
    · have he := seen.passes.still id isRoot validating
      have hx := ready.failed id (mem_left_of_ready ready he rfl)
      simp [he] at hx
  rcases seen.fails rfl with early | ⟨id, left, path⟩
  · exact early
  · exact absurd path (seen.checked.not_sunk fair ready ended id left)

/-- A unit that is valid without a report uses no declaring condition early. -/
theorem not_usesEarly_of_validate (fair : o.Fair) (ready : w.Ready o.tree o.root o.denoted o.left)
    {r : NodeId} (ran : validate o.root w = .ok (some r) t) (quiet : ¬t.Loud) :
    ¬o.tree.UsesEarly o.root := by
  rintro ⟨loop, init, conds, updates, body, hb, isLoop, early⟩
  have seen := visited_validate ready fair ran quiet
  have valid := seen.checked.valid_below .root (seen.valid rfl) hb
  exact (seen.checked.valid loop hb valid).loop init conds updates body isLoop early

end Outset

end TreeCompiler
