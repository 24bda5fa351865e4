import TreeCompiler.Proofs.Copies
import TreeCompiler.Proofs.ExpressionFrames
import TreeCompiler.Proofs.StagedCourses
import TreeCompiler.Proofs.ValidationStops
import TreeCompiler.Validation.Speculation

/-!
# Speculation leaves no trace

How an expression would fit a type is found out on a copy of it, which stands behind all other
nodes. No link leads from the copy to them, so whatever validation does to the copy, and wherever it
stops, they stay as they are; and what stands behind them is dropped in the end.
-/

namespace TreeCompiler

open Step

namespace Tree

/-- Nodes that are linked both ways, and without a circle. -/
structure IsForest (tree : Tree) : Prop where
  rooted : ∀ r, tree.root = some r → tree.Has r
  linked : ∀ id c, c ∈ tree.children id → tree.parent? c = some id
  acyclic : ∀ id c, c ∈ tree.children id → ¬tree.Below c id

namespace Beside

variable {s now : Tree} {id : NodeId}

theorem refl (s : Tree) : s.Beside s where
  root := rfl
  size := Nat.le_refl _
  nodes _ _ := rfl
  behind id _ far hf := absurd ((Array.getElem?_eq_none far).symm.trans hf) (by simp)

variable (beside : s.Beside now)

include beside

theorem child (far : s.size ≤ id.index) {c : NodeId} (mem : c ∈ now.children id) :
    s.size ≤ c.index := by
  cases hf : now.node? id with
  | none => simp [children, form?, hf] at mem
  | some node =>
    exact (beside.behind id node far hf).down c (by simpa [children, form?, hf] using mem)

theorem modify (far : s.size ≤ id.index) {f : Node → Node}
    (keeps : ∀ node, IsBehind s.size node → IsBehind s.size (f node)) :
    s.Beside (now.modify id f) where
  root := beside.root
  size := by simpa using beside.size
  nodes x hi := by
    have apart : x ≠ id := by
      rintro rfl
      omega
    rw [node?_modify, if_neg apart, beside.nodes x hi]
  behind x node farOther hf := by
    rw [node?_modify] at hf
    split at hf
    · obtain ⟨old, here, rfl⟩ := Option.map_eq_some_iff.mp hf
      exact keeps old (beside.behind x old farOther here)
    · exact beside.behind x node farOther hf

theorem modifyFacts (far : s.size ≤ id.index) (f : Facts → Facts) :
    s.Beside (now.modifyFacts id f) :=
  beside.modify far fun _ behind => ⟨behind.down, behind.up⟩

theorem setParent (far : s.size ≤ id.index) (par : Option NodeId)
    (up : ∀ up, par = some up → s.size ≤ up.index) : s.Beside (now.setParent id par) :=
  beside.modify far fun _ behind => ⟨behind.down, up⟩

theorem replaceChild {up old new : NodeId} (far : s.size ≤ up.index)
    (farOld : s.size ≤ old.index) (farNew : s.size ≤ new.index) :
    s.Beside (now.replaceChild up old new).2 := by
  unfold Tree.replaceChild
  split
  · exact beside
  · split
    · have swapped : s.Beside (now.modify up fun node => { node with
          form := node.form.mapChildren fun c => if c = old then new else c }) := by
        refine beside.modify far fun node behind => ⟨fun c mem => ?_, behind.up⟩
        rw [Form.children_mapChildren] at mem
        obtain ⟨fst, hi, rfl⟩ := List.mem_map.mp mem
        split
        · exact farNew
        · exact behind.down fst hi
      refine (swapped.setParent farNew (some up) ?_).setParent farOld none (by simp)
      rintro _ ⟨rfl⟩
      exact far
    · exact beside

end Beside

theorem IsForest.isArena {tree : Tree} (forest : tree.IsForest) : tree.IsArena :=
  ⟨forest.rooted, fun id c mem => has_of_parent (forest.linked id c mem), forest.acyclic⟩

theorem beside_copy {s : Tree} (forest : s.IsForest) (id : NodeId) :
    s.Beside (s.copy id).2 ∧ s.size ≤ (s.copy id).1.index := by
  by_cases has : s.Has id
  · have copied := copied_copy forest.isArena has
    exact ⟨copied.beside, (copied.free _ (by simp)).1⟩
  · have absent : s.node? id = none := by simpa [Has] using has
    have eq : s.copy id = (id, s) := by
      simp only [Tree.copy, fuel, Tree.copyWithin, StateT.run_bind, StateT.run_get]
      simp only [pure, Bind.bind, absent]
      rfl
    rw [eq]
    exact ⟨.refl s, Nat.le_of_not_lt fun hi => has (s.has_iff_lt.mpr hi)⟩

theorem isForest_of_table {tree : Tree} (rooted : ∀ r, tree.root = some r → tree.Has r)
    (table : ∀ i < tree.size, ∀ c ∈ tree.children ⟨i⟩,
      tree.parent? c = some ⟨i⟩ ∧ c.index < i) : tree.IsForest := by
  have arena := isArena_of_table rooted fun i hi c mem => (table i hi c mem).2
  exact ⟨rooted, fun id c mem => (links_of_table table id c mem).1, arena.acyclic⟩

end Tree

/-- Work behind the nodes that were there at first, which changes nothing else but the pool and the
sink. -/
structure Work.Beside (s now : Work) : Prop where
  pool : now.pool.Extends s.pool
  symbols : now.symbols = s.symbols
  labels : now.labels = s.labels
  tree : s.tree.Beside now.tree

namespace Validation

open WorkM ExpressionInvariant

variable {work : Work} {id : NodeId}

theorem pools_beside (s : Work) : PoolLogic (Always s.Beside) :=
  { LookLogic.always with
    onPool := fun grows work beside => by
      obtain ⟨p, larger, ends⟩ := Resolution.always_grown_onPool grows work work (.refl work)
      rw [ends]
      exact ⟨larger.trans beside.pool, beside.symbols, beside.labels, beside.tree⟩ }

/-- What is validated behind the nodes of a tree stays behind them. -/
theorem expressionInvariant_beside (s : Work) :
    ExpressionInvariant (.visiting fun id => s.tree.size ≤ id.index) s.Beside fun _ _ => True :=
  have changed : ∀ {now : Work} {tree : Tree}, s.Beside now → s.tree.Beside tree →
      s.Beside (now.withTree tree) :=
    fun beside tree => ⟨beside.pool, beside.symbols, beside.labels, tree⟩
  have pools := pools_beside s
  { toLeads := .visiting fun beside far mem => beside.tree.child far mem
    type := fun _ _ => trivial
    constant := fun _ _ => trivial
    bound := fun _ _ => ⟨trivial, trivial⟩
    stage := fun _ _ _ beside behind _ => changed beside (beside.tree.modifyFacts behind _)
    typed := fun _ _ _ _ _ beside behind _ _ => changed beside (beside.tree.modifyFacts behind _)
    fitted := fun _ _ _ beside behind => changed beside (beside.tree.modifyFacts behind _)
    report := fun _ _ beside => ⟨beside.pool, beside.symbols, beside.labels, beside.tree⟩
    replace := fun _ _ _ _ _ beside far _ farNew lk => by
      obtain ⟨node, hf, lk⟩ := Option.bind_eq_some_iff.mp lk
      exact changed beside (beside.tree.replaceChild ((beside.tree.behind _ node far hf).up _ lk) far farNew)
    resolved := fun id beside behind => goes_of_always (pools.resolveType
      (fun _ _ _ beside => ⟨beside.pool, beside.symbols, beside.labels, beside.tree⟩)
      fun _ _ beside => changed beside (beside.tree.modifyFacts behind _)) (by simp) beside
    intern := fun beside _ => goes_of_always (pools.onPool (PoolM.grows_intern _)) (by simp) beside
    canonical := fun _ _ => goes_of_always (pools.onPool (PoolM.grows_canonical _)) (by simp)
    typeOf := fun _ => goes_of_always (pools.onPool (PoolM.grows_typeOf _)) (by simp)
    fit := fun _ _ _ => goes_of_always (pools.onPool (grows_fit _ _)) (by simp)
    foldUnary := fun _ _ => goes_of_always (pools.onPool (grows_foldUnary _ _)) (by simp)
    foldBinary := fun _ _ _ => goes_of_always (pools.onPool (grows_foldBinary _ _ _)) (by simp) }

theorem beside_fitOfValidated {s : Work} (beside : s.Beside work)
    (behind : s.tree.size ≤ id.index) (req : ConstId) :
    s.Beside (endState (fitOfValidated id req work)) := by
  have inv := expressionInvariant_beside s
  have goes : Goes (Work.Upholds s.Beside fun _ _ => True) (fitOfValidated id req)
      (fun _ _ => True) work := by
    refine Goes.bind (goes_tree (inv.guided_validateExprWithin _ behind none beside))
      fun ans t hu _ => ?_
    split
    · exact upheld_pure _ hu.holds
    · refine goes_facts ?_
      split
      · exact inv.fit _ _ hu.holds
      · exact upheld_pure _ hu.holds
  exact goes.1.holds

/-- Speculation ends with the copy, once it is validated, dropped and the sink put back. -/
theorem endState_speculate (id : NodeId) (req : ConstId) : let copied := work.tree.copy id
    let t := endState (fitOfValidated copied.1 req
      { work with tree := copied.2, sink := work.sink.speculative })
    endState (speculate id req work) =
      { t with tree := t.tree.truncate work.tree.size, sink := work.sink } := by
  intro copied t
  obtain ⟨res, attempted⟩ : ∃ res, attempt (fitOfValidated copied.1 req)
      { work with tree := copied.2, sink := work.sink.speculative } = .ok res t := by
    unfold attempt t
    cases fitOfValidated copied.1 req
      { work with tree := copied.2, sink := work.sink.speculative } <;> exact ⟨_, rfl⟩
  have sunk : withSpeculativeSink (fitOfValidated copied.1 req) { work with tree := copied.2 } =
      .ok res { t with sink := work.sink } :=
    (bind_of_ok rfl).trans ((bind_of_ok rfl).trans ((bind_of_ok attempted).trans rfl))
  refine (congrArg endState ((bind_of_ok rfl).trans ((bind_of_ok rfl).trans (bind_of_ok sunk)))).trans ?_
  cases res <;> rfl

/-- However an expression would fit a type, finding that out adds constants to the pool and leaves
everything else as it was, whether it ends or stops on a defect. -/
theorem speculate_leaves_no_trace (forest : work.tree.IsForest) (id : NodeId) (required : ConstId) :
    work.Grown (endState (speculate id required work)) := by
  obtain ⟨beside, behind⟩ := Tree.beside_copy forest id
  have copied : work.Beside { work with tree := (work.tree.copy id).2, sink := work.sink.speculative } :=
    ⟨.refl _, rfl, rfl, beside⟩
  have kept := beside_fitOfValidated copied behind required
  rw [endState_speculate]
  refine ⟨_, kept.pool, ?_⟩
  rw [kept.tree.truncate forest.rooted, kept.symbols, kept.labels]
  rfl

/-- The value in parentheses of a unit would be an integer. -/
theorem repeatingUnit_leaves_no_trace :
    let work : Work := { pool := (Pool.empty.intern (.type (.named "Int"))).2, tree := repeatingUnit }
    work.tree.IsForest ∧ work.Grown (endState (speculate ⟨2⟩ ⟨0⟩ work)) := by
  intro work
  have forest : work.tree.IsForest := by
    refine Tree.isForest_of_table ?_ (by decide)
    rintro _ ⟨rfl⟩
    rfl
  exact ⟨forest, speculate_leaves_no_trace forest ⟨2⟩ ⟨0⟩⟩

end Validation

end TreeCompiler
