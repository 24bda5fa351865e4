import Mathlib
import TreeCompiler.Tree.Walk

/-!
# Changes of trees

What is left of a tree when a node, its facts or its place among the children of another is changed.
-/

namespace TreeCompiler.Tree

variable (tree : Tree)

variable {id : NodeId} {stmt : Stmt} {expr : Expr}

/-- Whether there is a node of the id. -/
def Has (id : NodeId) : Prop := (tree.node? id).isSome

theorem has_iff_lt : tree.Has id ↔ id.index < tree.size := by
  simp [Has, node?, size]

theorem has_of_stmt (hf : tree.stmt? id = some stmt) : tree.Has id := by
  unfold stmt? form? at hf
  unfold Has
  cases hp : tree.node? id with
  | none => simp [hp] at hf
  | some node => rfl

theorem has_of_expr (hf : tree.expr? id = some expr) : tree.Has id := by
  unfold expr? form? at hf
  unfold Has
  cases hp : tree.node? id with
  | none => simp [hp] at hf
  | some node => rfl

theorem form?_of_expr (hf : tree.expr? id = some expr) : tree.form? id = some (.expr expr) := by
  obtain ⟨form, hp, held⟩ := Option.bind_eq_some_iff.mp hf
  cases form <;> simp_all [Form.expr?]

theorem form?_of_stmt (hf : tree.stmt? id = some stmt) : tree.form? id = some (.stmt stmt) := by
  obtain ⟨form, hp, held⟩ := Option.bind_eq_some_iff.mp hf
  cases form <;> simp_all [Form.stmt?]

theorem stmt?_of_expr (hf : tree.expr? id = some expr) : tree.stmt? id = none := by
  simp [stmt?, tree.form?_of_expr hf, Form.stmt?]

theorem stmt?_of_type {ty : TypeExpr} (hf : tree.type? id = some ty) : tree.stmt? id = none := by
  obtain ⟨form, hp, held⟩ := Option.bind_eq_some_iff.mp hf
  cases form <;> simp_all [stmt?, Form.stmt?, Form.type?]

theorem expr?_of_type {ty : TypeExpr} (hf : tree.type? id = some ty) : tree.expr? id = none := by
  obtain ⟨form, hp, held⟩ := Option.bind_eq_some_iff.mp hf
  cases form <;> simp_all [expr?, Form.type?, Form.expr?]

theorem children_of_expr (hf : tree.expr? id = some expr) : tree.children id = expr.children := by
  simp [children, tree.form?_of_expr hf, Form.children]

theorem children_of_stmt (hf : tree.stmt? id = some stmt) : tree.children id = stmt.children := by
  simp [children, tree.form?_of_stmt hf, Form.children]

theorem node?_modify (id x : NodeId) (f : Node → Node) : (tree.modify id f).node? x =
      if x = id then (tree.node? x).map f else tree.node? x := by
  unfold node? modify
  rw [Array.getElem?_modify]
  by_cases eq : x = id
  · subst eq
    simp
  · have ne : id.index ≠ x.index := by
      intro he
      cases id
      simp_all
    simp [eq, ne]

@[simp] theorem size_modify (id : NodeId) (f : Node → Node) :
    (tree.modify id f).size = tree.size := by
  simp [size, modify]

@[simp] theorem form?_modify (id x : NodeId) (f : Facts → Facts) :
    (tree.modifyFacts id f).form? x = tree.form? x := by
  unfold form? modifyFacts
  rw [node?_modify]
  split <;> simp [Function.comp_def]

@[simp] theorem stmt?_modify (id x : NodeId) (f : Facts → Facts) :
    (tree.modifyFacts id f).stmt? x = tree.stmt? x := by
  simp [stmt?]

@[simp] theorem children_modify (id x : NodeId) (f : Facts → Facts) :
    (tree.modifyFacts id f).children x = tree.children x := by
  simp [children]

@[simp] theorem parent?_modify (id x : NodeId) (f : Facts → Facts) :
    (tree.modifyFacts id f).parent? x = tree.parent? x := by
  unfold parent? modifyFacts
  rw [node?_modify]
  split
  · cases tree.node? x <;> rfl
  · rfl

@[simp] theorem size_modifyFacts (id : NodeId) (f : Facts → Facts) :
    (tree.modifyFacts id f).size = tree.size := by
  simp [modifyFacts]

@[simp] theorem has_modify (id x : NodeId) (f : Facts → Facts) :
    (tree.modifyFacts id f).Has x ↔ tree.Has x := by
  simp [has_iff_lt]

/-- An id without a node has blank facts whatever is noted there. -/
theorem facts_of_not_has (absent : ¬tree.Has id) : tree.facts id = {} := by
  have none : tree.node? id = none := by simpa [Has] using absent
  simp [facts, none]

theorem facts_modify_same (hp : tree.Has id) (f : Facts → Facts) :
    (tree.modifyFacts id f).facts id = f (tree.facts id) := by
  obtain ⟨node, hf⟩ := Option.isSome_iff_exists.mp hp
  simp [facts, modifyFacts, node?_modify, hf]

theorem facts_modify_ne {x : NodeId} (ne : x ≠ id) (f : Facts → Facts) :
    (tree.modifyFacts id f).facts x = tree.facts x := by
  simp [facts, modifyFacts, node?_modify, ne]

/-- What a change of facts leaves alone about the facts it changes, it leaves alone everywhere. -/
theorem facts_modify_of {β : Type} (view : Facts → β) {f : Facts → Facts}
    (kept : ∀ facts, view (f facts) = view facts) (id x : NodeId) :
    view ((tree.modifyFacts id f).facts x) = view (tree.facts x) := by
  by_cases eq : x = id
  · subst eq
    by_cases hp : tree.Has x
    · rw [tree.facts_modify_same hp, kept]
    · rw [tree.facts_of_not_has hp,
        facts_of_not_has _ (by rwa [has_modify])]
  · rw [tree.facts_modify_ne eq]

@[simp] theorem form?_setStage (id x : NodeId) (stage : Stage) :
    (tree.setStage id stage).form? x = tree.form? x := by simp [setStage]

@[simp] theorem size_setStage (id : NodeId) (stage : Stage) :
    (tree.setStage id stage).size = tree.size := by simp [setStage]

@[simp] theorem has_setStage (id x : NodeId) (stage : Stage) :
    (tree.setStage id stage).Has x ↔ tree.Has x := by simp [setStage]

end TreeCompiler.Tree
