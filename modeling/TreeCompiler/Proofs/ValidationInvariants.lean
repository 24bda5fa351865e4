import TreeCompiler.Proofs.ValidationStops

/-!
# Invariants of validation

What the basic steps of validation keep is kept by the validation of every statement, and so by that
of a unit, wherever it ends. An invariant that does not depend on which ids are in use is kept by
every validation that succeeds if the basic steps keep it and it is kept while the pool grows.
-/

namespace TreeCompiler

open Step Validation

variable {id : NodeId} {α : Type}

/-- A property of the work that every basic step of validation keeps where its guide lets them be
made, as long as the ids in use are kept in use. -/
structure CheckingInvariant (gd : Guide) (P : Work → Prop) (Held : Pool → ConstId → Prop) : Prop
    extends ExpressionInvariant gd P Held where
  jump : ∀ w id kind l tgt, P w → gd.follows id →
    (w.tree.stmt? id).bind Stmt.jump? = some (kind, l) → (w.tree.facts id).jump = none →
    w.tree.jumpTarget kind l (w.tree.ancestorsInMethod id) = .ok tgt →
    P (w.jumped id { target := tgt, depth := w.tree.scopesUpTo tgt (w.tree.ancestorsInMethod id), kind })

/-- The parts of a statement are validated with a property upheld. -/
structure Validation.Validator.Upholds (gd : Guide) (P : Work → Prop) (Held : Pool → ConstId → Prop)
    (vd : Validator) : Prop where
  type : ∀ {w id}, P w → gd.visits id → Gives P Held (vd.type id) w
  expr : Sound gd P Held vd.expr
  stmt : ∀ {w id} rets, P w → gd.follows id → Goes (Work.Upholds P Held)
    (vd.stmt rets id) (fun res _ => ∀ node ∈ res, node = id) w

namespace CheckingInvariant

open WorkM ExpressionInvariant

variable {gd : Guide} {P : Work → Prop} {Held : Pool → ConstId → Prop} {w : Work}
  (inv : CheckingInvariant gd P Held)

include inv

theorem upheld_jumpResolve (hfo : gd.follows id) : Upheld P Held (Jump.resolve id) := by
  intro w h
  refine goes_tree ?_
  split
  · exact upheld_pure _ h
  · rename_i kind l form
    split
    · exact upheld_pure _ h
    · rename_i unbound
      dsimp only
      split
      · exact inv.steps.refuse _ _ _ _ h
      · rename_i tgt hf
        exact goes_unpooled rfl (inv.jump w id kind l tgt h hfo form unbound hf) rfl

theorem stands_of_follows (hf : gd.follows id) : gd.stands id id ∧ gd.passes id :=
  ⟨inv.stands_self (inv.visited hf) (inv.passed hf), inv.passed hf⟩

/-- What the basic steps uphold is upheld by steps that are put together from them. -/
theorem logic : CheckLogic gd (Upheld P Held) where
  toStepLogic := inv.steps
  visited := inv.visited
  stood := inv.stands_of_follows
  guided rest w h := goes_tree (rest w.tree (inv.followed h) h)
  fail visits := inv.upheld_setStage visits fun hr => absurd hr (by decide)
  start visits _ h := (inv.goes_start visits h).answering fun _ _ _ _ => trivial
  conclude visits allowed _ h := (inv.goes_conclude visits allowed h).answering fun _ _ _ _ => trivial
  jump := inv.upheld_jumpResolve

variable {vd : Validator} (ps : vd.Upholds gd P Held)

include ps

theorem checks : vd.Checks gd (Upheld P Held) where
  type visits _ h := (ps.type h visits).answering fun _ _ _ _ => trivial
  expr req visits := (ps.expr visits req).upheld
  stmt rets _ hfo _ h := (ps.stmt rets h hfo).answering fun _ _ _ _ => trivial
  condDecl visits visitsValue w h := by
    refine Goes.bind (ps.type h visits) fun ty now hu held => ?_
    split
    · exact upheld_pure _ hu.holds
    · refine Goes.bind (inv.intern hu.holds ?_) fun _ _ hf _ =>
        upheld_bind (ps.expr visitsValue _).upheld (fun _ => upheld_pure _) hf.holds
      simpa [Constant.children, TypeConstant.children] using held _ rfl

/-- What a node of any kind is validated to stands for it. -/
theorem guided_node (rets : List ConstId) (hf : gd.follows id) :
    Guided gd P Held id (vd.node rets id) := by
  have self := (inv.stands_of_follows hf).1
  have stmt : Guided gd P Held id (vd.stmt rets id) := fun _ h =>
    (ps.stmt rets h hf).answering fun _ _ _ eq node mem => eq node mem ▸ self
  refine fun w h => goes_tree ?_
  split
  · exact ps.expr (inv.visited hf) none h
  · refine Goes.bind (ps.type h (inv.visited hf)) fun ty _ hu _ =>
      goes_pure hu.holds fun node mem => ?_
    obtain ⟨-, -, rfl⟩ := Option.map_eq_some_iff.mp mem
    exact self
  · exact stmt h
  · exact stmt h

/-- A statement is stood for by itself alone. -/
theorem goes_validateStmt (rets : List ConstId) (h : P w) (hfo : gd.follows id) :
    Goes (Work.Upholds P Held) (vd.validateStmt rets id)
      (fun res _ => ∀ node ∈ res, node = id) w := by
  refine Goes.bind (inv.goes_start (inv.visited hfo) h) fun he now hu stood => ?_
  cases he with
  | some done => exact goes_pure hu.holds fun node mem => (stood _ rfl node mem).1
  | none =>
    refine Goes.bind (Q := fun res _ => ∀ node ∈ res, node = id) (goes_tree ?_)
      fun res t hfu self => ?_
    · split
      · exact Goes.throw (upholds_refl hu.holds)
      · rename_i stmt hf
        refine Goes.bind (inv.logic.stmtOk (inv.checks ps) rets hfo
          (fun c mem => inv.followed hu.holds hfo hf mem) hu.holds)
          fun ok _ hu _ => goes_pure hu.holds fun node mem => ?_
        cases ok <;> cases mem
        rfl
    · refine (inv.goes_conclude (inv.visited hfo) (fun node mem => ?_) hfu.holds).answering
        fun ans _ _ eq => eq ▸ self
      rw [self node mem]
      exact inv.stands_of_follows hfo

omit ps in
theorem upholds_validatorWithin (n : Nat) : (validatorWithin n).Upholds gd P Held := by
  induction n with
  | zero =>
    exact ⟨fun h visits => inv.goes_validateTypeWithin 0 visits h,
      inv.guided_validateExprWithin 0, fun _ h _ => Goes.throw (upholds_refl h)⟩
  | succ n ih =>
    exact ⟨fun h visits => inv.goes_validateTypeWithin _ visits h,
      inv.guided_validateExprWithin _, inv.goes_validateStmt ih⟩

omit ps in
/-- Whatever a unit is like, validating it upholds what its steps uphold, wherever it ends. -/
theorem guided_validate (hf : gd.follows id) : Guided gd P Held id (validate id) :=
  fun _ h => goes_tree (inv.guided_node (inv.upholds_validatorWithin _) [] hf h)

end CheckingInvariant

/-! ### Invariants that the pool does not matter to -/

/-- A property of the work that every basic step of validation keeps, with a guide that it bears
out. -/
structure ValidationInvariant (gd : Guide) (P : Work → Prop) : Prop extends gd.Leads P where
  stage : ∀ w id stage, P w → gd.visits id → (stage.hasReached .validated → gd.passes id) →
    P (w.withTree (w.tree.setStage id stage))
  type : ∀ w id type, P w → gd.visits id →
    P (w.withTree (w.tree.modifyFacts id fun facts => { facts with type := some type }))
  value : ∀ w id expr type k, P w → gd.visits id → gd.holds id expr →
    (∀ value, k = some value → Folded gd.stands w id expr value) →
    P (w.withTree (w.tree.modifyFacts id fun facts =>
      { facts with type := some type, constant := k }))
  fit : ∀ w id fit, P w → gd.visits id →
    P (w.withTree (w.tree.modifyFacts id fun facts => { facts with fit := some fit }))
  report : ∀ w diag, P w → P (w.reported diag)
  pool : ∀ w pool, P w → pool.Extends w.pool → P (w.withPool pool)
  jump : ∀ w id kind l tgt, P w → gd.follows id →
    (w.tree.stmt? id).bind Stmt.jump? = some (kind, l) → (w.tree.facts id).jump = none →
    w.tree.jumpTarget kind l (w.tree.ancestorsInMethod id) = .ok tgt →
    P (w.jumped id { target := tgt, depth := w.tree.scopesUpTo tgt (w.tree.ancestorsInMethod id), kind })
  replace : ∀ w id i new up, P w → gd.visits id → gd.holds id (.paren i) →
    gd.stands i new → w.tree.parent? id = some up →
    P (w.withTree (w.tree.replaceChild up id new).2)

namespace ValidationInvariant

open WorkM ExpressionInvariant

variable {gd : Guide} {P : Work → Prop} (inv : ValidationInvariant gd P)

include inv

theorem pools : PoolLogic (Always P) :=
  { LookLogic.always with
    onPool := fun {_ step} grows w h => by
      have hg := grows w.pool w.pool (.refl _)
      unfold onPool
      cases ran : step w.pool <;> rw [ran] at hg <;> exact inv.pool w _ h hg }

theorem checking : CheckingInvariant gd P fun _ _ => True :=
  have pools := inv.pools
  { inv with
    type := fun _ _ => trivial
    constant := fun _ _ => trivial
    bound := fun _ _ => ⟨trivial, trivial⟩
    typed := fun w id expr ty k h visits held rated =>
      inv.value w id expr ty k h visits held fun v eq => (rated.2 v eq).2
    fitted := inv.fit
    resolved := fun id h visits => goes_of_always (pools.resolveType (fun _ _ w h => inv.report w _ h)
      fun ty w h => inv.type w id ty h visits) (by simp) h
    intern := fun h _ => goes_of_always (pools.onPool (PoolM.grows_intern _)) (by simp) h
    canonical := fun _ _ => goes_of_always (pools.onPool (PoolM.grows_canonical _)) (by simp)
    typeOf := fun _ => goes_of_always (pools.onPool (PoolM.grows_typeOf _)) (by simp)
    fit := fun _ _ _ => goes_of_always (pools.onPool (grows_fit _ _)) (by simp)
    foldUnary := fun _ _ => goes_of_always (pools.onPool (grows_foldUnary _ _)) (by simp)
    foldBinary := fun _ _ _ => goes_of_always (pools.onPool (grows_foldBinary _ _ _)) (by simp) }

theorem keeps_onPool {step : PoolM α} (grows : PoolM.Grows step) : Keeps P (onPool step) :=
  (inv.pools.onPool grows).keeps

theorem keeps_resolveType (visits : gd.visits id) : Keeps P (Resolution.resolveType id) :=
  Upheld.keeps fun _ h => (inv.checking.resolved id h visits).answering fun _ _ _ _ => trivial

theorem keeps_validateTypeWithin (n : Nat) (visits : gd.visits id) :
    Keeps P (validateTypeWithin n id) :=
  Upheld.keeps fun _ h => (inv.checking.goes_validateTypeWithin n visits h).answering fun _ _ _ _ => trivial

/-- What the basic steps keep is kept by steps that are put together from them. -/
theorem logic : CheckLogic gd (Keeps P) :=
  have all := inv.checking.logic
  { LookLogic.keeps, all with
    report := fun code id args => (all.report code id args).keeps
    named := fun name => (all.named name).keeps
    canonical := fun id => (all.canonical id).keeps
    fit := fun actual req => (all.fit actual req).keeps
    guided := fun rest w ans t h done =>
      rest w.tree (inv.followed h) w ans t h (rest_ok done rfl)
    fail := fun visits => (all.fail visits).keeps
    start := fun visits => (all.start visits).keeps
    conclude := fun visits allowed => (all.conclude visits allowed).keeps
    jump := fun hf => (all.jump hf).keeps }

theorem checks {vd : Validator} (ps : vd.Upholds gd P fun _ _ => True) :
    vd.Checks gd (Keeps P) :=
  have all := inv.checking.checks ps
  ⟨fun visits => (all.type visits).keeps, fun req visits => (all.expr req visits).keeps,
    fun rets _ hf => (all.stmt rets hf).keeps,
    fun visits visitsValue => (all.condDecl visits visitsValue).keeps⟩

theorem keeps_validate (hf : gd.follows id) : Keeps P (validate id) :=
  (inv.checking.guided_validate hf).upheld.keeps

end ValidationInvariant

end TreeCompiler
