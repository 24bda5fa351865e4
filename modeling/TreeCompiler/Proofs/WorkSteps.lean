import TreeCompiler.Proofs.Steps

/-!
# The steps of work

What each basic step of work on a unit does when it succeeds.
-/

namespace TreeCompiler

variable {id : NodeId} {u : Unit} {R : Work → Work → Prop}

namespace Work

/-- The work with another tree. -/
def withTree (w : Work) (tree : Tree) : Work := { w with tree }

/-- The work with another pool. -/
def withPool (w : Work) (p : Pool) : Work := { w with pool := p }

/-- The work after a diagnostic. -/
def reported (w : Work) (diag : Diagnostic) : Work :=
  { w with sink := w.sink.report diag }

/-- The work once a node has a label scope. -/
def withScope (w : Work) (own : NodeId) : Work :=
  let (_, tree, labels) := w.tree.labelScope own w.labels
  { w with tree, labels }

end Work

namespace WorkM

open Step

variable {w t : Work} {α : Type}

@[simp] theorem tree_ok {tree : Tree} : WorkM.tree w = .ok tree t ↔ w.tree = tree ∧ w = t := by
  simp only [WorkM.tree, bind_ok, get_ok, pure_ok]
  grind

@[simp] theorem facts_ok {facts : Facts} :
    WorkM.facts id w = .ok facts t ↔ w.tree.facts id = facts ∧ w = t := by
  simp only [WorkM.facts, bind_ok, tree_ok, pure_ok]
  grind

@[simp] theorem stage_ok {stage : Stage} :
    WorkM.stage id w = .ok stage t ↔ w.tree.stage id = stage ∧ w = t := by
  simp only [WorkM.stage, bind_ok, tree_ok, pure_ok]
  grind

@[simp] theorem modifyFacts_ok {f : Facts → Facts} : WorkM.modifyFacts id f w = .ok u t ↔
      w.withTree (w.tree.modifyFacts id f) = t := by
  exact modify_ok

@[simp] theorem setStage_ok {stage : Stage} : WorkM.setStage id stage w = .ok u t ↔
      w.withTree (w.tree.setStage id stage) = t := by
  exact modify_ok

@[simp] theorem report_ok {diag : Diagnostic} :
    WorkM.report diag w = .ok u t ↔ w.reported diag = t := by
  exact modify_ok

@[simp] theorem reportAt_ok {code : Code} {args : List String} :
    WorkM.reportAt code id args w = .ok u t ↔
      w.reported (.errorAt code args (w.tree.span id)) = t := by
  simp only [WorkM.reportAt, bind_ok, tree_ok, report_ok]
  grind

theorem onPool_ok {step : PoolM α} {a : α} : WorkM.onPool step w = .ok a t ↔
      ∃ p, step w.pool = .ok a p ∧ w.withPool p = t := by
  unfold WorkM.onPool
  cases ran : step w.pool <;> simp [Work.withPool]

@[simp] theorem readPool_ok {look : Pool → Except PoolError α} {a : α} :
    WorkM.readPool look w = .ok a t ↔ look w.pool = .ok a ∧ w = t := by
  unfold WorkM.readPool PoolM.read
  simp only [onPool_ok, bind_ok]
  cases hf : look w.pool <;> simp_all [Work.withPool]

@[simp] theorem labelScope_ok {sc : UInt32} : WorkM.labelScope id w = .ok sc t ↔
      (w.tree.labelScope id w.labels).1 = sc ∧ w.withScope id = t := by
  unfold WorkM.labelScope
  simp only [modifyGet_ok, Prod.mk.injEq]
  rfl

@[simp] theorem onTree_ok {step : Tree → α × Tree} {a : α} : WorkM.onTree step w = .ok a t ↔
      (step w.tree).1 = a ∧ w.withTree (step w.tree).2 = t := by
  unfold WorkM.onTree
  simp only [modifyGet_ok, Prod.mk.injEq]
  rfl

/-! ### Looks at the work -/

theorem goes_tree {rest : Tree → WorkM α} {Q : α → Work → Prop}
    (goes : Goes R (rest w.tree) Q w) : Goes R (WorkM.tree >>= rest) Q w := goes

theorem goes_facts {rest : Facts → WorkM α} {Q : α → Work → Prop}
    (goes : Goes R (rest (w.tree.facts id)) Q w) : Goes R (WorkM.facts id >>= rest) Q w := goes

theorem goes_stage {rest : Stage → WorkM α} {Q : α → Work → Prop}
    (goes : Goes R (rest (w.tree.stage id)) Q w) : Goes R (WorkM.stage id >>= rest) Q w := goes

end WorkM

end TreeCompiler
