import TreeCompiler.Proofs.PoolExtension
import TreeCompiler.Proofs.WorkSteps

/-!
# Ways to follow a step

What is said of a step of validation may be about how it ends, or about wherever it ends or stops.
As long as it is closed under composition, it holds of whatever is put together from steps that it
holds of, and how validation is put together is gone through once for all that may be said. A guide
says where a step is made, in terms that do not change while the steps are made.
-/

namespace TreeCompiler

open Step WorkM Validation

variable {id : NodeId} {ids : List NodeId}

variable {P : Work → Prop} {qs : List Param} {body v : NodeId} {conds vals : List NodeId}

namespace Validation

/-- What is known about nodes whatever validation has done. -/
structure Guide where
  /-- The nodes that are visited. -/
  visits : NodeId → Prop
  /-- The nodes that are visited from statement to statement. -/
  follows : NodeId → Prop
  /-- The nodes that may become valid. -/
  passes : NodeId → Prop
  /-- Which node stands for which once both are valid. -/
  stands : NodeId → NodeId → Prop
  /-- The expressions that a node may hold. -/
  holds : NodeId → Expr → Prop

/-- A guide that only says which nodes are visited. -/
def Guide.visiting (Visits : NodeId → Prop) : Guide where
  visits := Visits
  follows := Visits
  passes _ := True
  stands _ new := Visits new
  holds _ _ := True

/-- A guide that lets every step be made. -/
def Guide.any : Guide := .visiting fun _ => True

end Validation

theorem WorkM.readPool_of_error {α : Type} {look : Pool → Except PoolError α} {w : Work}
    {error : PoolError} (hx : look w.pool = .error error) :
    readPool look w = .error (.pool error) w := by
  unfold readPool onPool
  rw [PoolM.read_of_error hx]

/-- What may be said of steps that only look at nodes and constants: it is closed under
composition. -/
structure LookLogic (Good : ∀ {α : Type}, WorkM α → Prop) : Prop where
  pure : ∀ {α : Type} (a : α), Good (Pure.pure a)
  throw : ∀ {α : Type} (defect : Defect), Good (MonadExcept.throw defect : WorkM α)
  bind : ∀ {α β : Type} {step : WorkM α} {next : α → WorkM β}, Good step → (∀ a, Good (next a)) →
    Good (step >>= next)
  tree : Good WorkM.tree
  describe : ∀ id, Good (WorkM.describe id)
  readPool : ∀ {α : Type} (look : Pool → Except PoolError α), Good (WorkM.readPool look)

/-- What may be said of steps that also intern constants. -/
structure PoolLogic (Good : ∀ {α : Type}, WorkM α → Prop) : Prop extends LookLogic @Good where
  onPool : ∀ {α : Type} {step : PoolM α}, PoolM.Grows step → Good (WorkM.onPool step)

/-- What may be said of steps that only look at nodes and intern constants. -/
structure InternLogic (Good : ∀ {α : Type}, WorkM α → Prop) : Prop where
  pure : ∀ {α : Type} (a : α), Good (Pure.pure a)
  throw : ∀ {α : Type} (defect : Defect), Good (MonadExcept.throw defect : WorkM α)
  bind : ∀ {α β : Type} {step : WorkM α} {next : α → WorkM β}, Good step → (∀ a, Good (next a)) →
    Good (step >>= next)
  tree : Good WorkM.tree
  intern : ∀ k, Good (WorkM.onPool (.intern k))

/-- What may be said of steps that also look names up. -/
structure LookupLogic (Good : ∀ {α : Type}, WorkM α → Prop) : Prop extends PoolLogic @Good where
  get : Good (MonadState.get : WorkM Work)
  attempt : ∀ {α : Type} {step : WorkM α}, Good step → Good (WorkM.attempt step)
  lookup : ∀ sc name, Good (WorkM.lookup sc name)

/-- What may be said of steps that also report and compare types. -/
structure StepLogic (Good : ∀ {α : Type}, WorkM α → Prop) : Prop extends LookLogic @Good where
  report : ∀ code id args, Good (reportAt code id args)
  named : ∀ name, Good (onPool (.namedType name))
  canonical : ∀ id, Good (onPool (.canonical id))
  fit : ∀ actual req, Good (onPool (Validation.fit actual req))

namespace LookLogic

variable {Good : ∀ {α : Type}, WorkM α → Prop} (lg : LookLogic @Good)

include lg

theorem facts (id : NodeId) : Good (WorkM.facts id) := lg.bind lg.tree fun _ => lg.pure _

theorem checkAll {α : Type} {check : α → WorkM Bool} {entries : List α}
    (each : ∀ entry ∈ entries, Good (check entry)) : Good (Validation.checkAll check entries) := by
  induction entries with
  | nil => exact lg.pure _
  | cons entry rest ih =>
    exact lg.bind (each entry (by simp)) fun _ =>
      lg.bind (ih fun x mem => each x (by simp [mem])) fun _ => lg.pure _

theorem constantBool (id : NodeId) : Good (Validation.constantBool id) := by
  refine lg.bind (lg.facts id) fun facts => ?_
  split
  · exact lg.readPool _
  · exact lg.pure _

theorem operandTypes (id lhs rhs : NodeId) : Good (Validation.operandTypes id lhs rhs) := by
  refine lg.bind (lg.facts _) fun left => lg.bind (lg.facts _) fun right => ?_
  split
  · exact lg.pure _
  · exact lg.throw _

theorem tupleFields (ty : Option ConstId) : Good (Validation.tupleFields ty) := by
  cases ty with
  | none => exact lg.pure _
  | some ty =>
    refine lg.bind (lg.readPool _) fun k => ?_
    split <;> exact lg.pure _

theorem elementFacts (es : List NodeId) : Good (Validation.elementFacts es) := by
  induction es with
  | nil => exact lg.pure _
  | cons elem rest ih =>
    refine lg.bind (lg.facts elem) fun facts => ?_
    split
    · exact lg.bind ih fun _ => lg.pure _
    · exact lg.throw _

theorem alwaysTrue (id : NodeId) : Good (Validator.alwaysTrue id) := by
  refine lg.bind lg.tree fun tree => ?_
  split
  · exact lg.pure _
  · rename_i stmt _
    induction stmt.conds with
    | nil => exact lg.pure _
    | cons cond rest ih =>
      rw [List.allM]
      refine lg.bind (lg.bind (lg.constantBool cond) fun _ => lg.pure _) fun h => ?_
      split
      · exact ih
      · exact lg.pure _

omit lg in
/-- What holds of the work is kept where nothing is changed. -/
theorem keeps : LookLogic (Keeps P) where
  pure := Keeps.pure
  throw := Keeps.throw
  bind := Keeps.bind
  tree := Keeps.bind Keeps.get fun _ => Keeps.pure _
  describe _ := Keeps.bind Keeps.get fun _ => Keeps.pure _
  readPool _ _ _ _ h done := (readPool_ok.mp done).2 ▸ h

omit lg in
theorem always : LookLogic (Always P) where
  pure := Always.pure
  throw := Always.throw
  bind := Always.bind
  tree := Always.bind Always.get fun _ => Always.pure _
  describe _ := Always.bind Always.get fun _ => Always.pure _
  readPool look w h := by
    cases hf : look w.pool with
    | ok a =>
      rw [readPool_ok.mpr ⟨hf, rfl⟩]
      exact h
    | error error =>
      rw [readPool_of_error hf]
      exact h

end LookLogic

namespace InternLogic

variable {Good : ∀ {α : Type}, WorkM α → Prop} (lg : InternLogic @Good)

include lg

theorem map {k : Constant} {α : Type} (f : ConstId → α) :
    Good (f <$> WorkM.onPool (.intern k)) := by
  rw [map_eq_pure_bind]
  exact lg.bind (lg.intern k) fun _ => lg.pure _

theorem allKnown {look : NodeId → WorkM (Option ConstId)} (ps : ∀ id, Good (look id))
    (ids : List NodeId) : Good (Resolution.allKnown look ids) := by
  induction ids with
  | nil => exact lg.pure _
  | cons id rest ih =>
    refine lg.bind (ps id) fun ty => ?_
    cases ty with
    | none => exact lg.pure _
    | some ty => exact lg.bind ih fun _ => lg.pure _

theorem currentTypeWithin (n : Nat) (id : NodeId) : Good (Resolution.currentTypeWithin n id) := by
  induction n generalizing id with
  | zero => exact lg.throw _
  | succ n ih =>
    refine lg.bind lg.tree fun tree => ?_
    split
    · exact lg.pure _
    · split
      · exact lg.throw _
      · refine lg.bind (lg.allKnown ih _) fun qs => ?_
        split
        · rename_i base qs _
          cases qs with
          | nil => exact lg.pure _
          | cons => exact lg.map _
        · exact lg.pure _
      · exact lg.pure _
      · refine lg.bind (lg.allKnown ih _) fun types => ?_
        cases types with
        | none => exact lg.pure _
        | some types => exact lg.map _
      · refine lg.bind (ih _) fun base => ?_
        cases base with
        | none => exact lg.pure _
        | some base => exact lg.map _
      · exact lg.pure _

theorem currentType (id : NodeId) : Good (Resolution.currentType id) :=
  lg.bind lg.tree fun _ => lg.currentTypeWithin _ _

end InternLogic

namespace PoolLogic

variable {Good : ∀ {α : Type}, WorkM α → Prop} (lg : PoolLogic @Good)

include lg

theorem steps (report : ∀ code id args, Good (reportAt code id args)) : StepLogic @Good :=
  { lg with
    report
    named := fun _ => lg.onPool (PoolM.grows_intern _)
    canonical := fun _ => lg.onPool (PoolM.grows_canonical _)
    fit := fun _ _ => lg.onPool (grows_fit _ _) }

theorem map {α β : Type} (f : α → β) {step : PoolM α} (grows : PoolM.Grows step) :
    Good (f <$> WorkM.onPool step) := by
  rw [map_eq_pure_bind]
  exact lg.bind (lg.onPool grows) fun _ => lg.pure _

theorem currentType (id : NodeId) : Good (Resolution.currentType id) :=
  InternLogic.currentType ⟨lg.pure, lg.throw, lg.bind, lg.tree,
    fun _ => lg.onPool (PoolM.grows_intern _)⟩ id

theorem resolveType (report : ∀ code args, Good (reportAt code id args))
    (note : ∀ ty, Good (modifyFacts id fun facts => { facts with type := some ty })) :
    Good (Resolution.resolveType id) := by
  refine lg.bind lg.tree fun tree => ?_
  split
  · exact lg.bind (report _ _) fun _ => lg.pure _
  · refine lg.bind (lg.currentType _) fun current => ?_
    cases current with
    | none => exact lg.pure _
    | some current =>
      refine lg.bind (lg.readPool _) fun res => ?_
      split
      · exact lg.bind (lg.onPool (PoolM.grows_canonical _)) fun _ =>
          lg.bind (note _) fun _ => lg.pure _
      · exact lg.pure _

end PoolLogic

namespace LookupLogic

variable {Good : ∀ {α : Type}, WorkM α → Prop} (lg : LookupLogic @Good)

include lg

theorem typedefType (typedef : NodeId) : Good (Resolution.typedefType typedef) := by
  refine lg.bind lg.tree fun tree => ?_
  split
  · refine lg.bind (lg.attempt (lg.currentType _)) fun current => ?_
    split
    · refine lg.bind lg.get fun w => ?_
      split
      · exact lg.bind (lg.attempt (lg.onPool (PoolM.grows_canonical _))) fun _ => lg.pure _
      · exact lg.pure _
    · exact lg.pure _
  · exact lg.pure _

theorem lookupTypeSymbol (sc name : String) : Good (Resolution.lookupTypeSymbol sc name) := by
  refine lg.bind (lg.lookup sc name) fun ans => ?_
  split <;> exact lg.pure _

theorem lookupType (sc : String) (id : NodeId) (names : List String) :
    Good (Resolution.lookupType sc id names) := by
  unfold Resolution.lookupType
  split
  · refine lg.bind lg.tree fun tree => ?_
    split
    · refine lg.bind (lg.typedefType _) fun ty => ?_
      split <;> exact lg.pure _
    · split
      · exact lg.map _ (PoolM.grows_intern _)
      · exact lg.lookupTypeSymbol _ _
  · exact lg.lookupTypeSymbol _ _

theorem lookupSymbol (sc name : String) : Good (Resolution.lookupSymbol sc name) := by
  refine lg.bind (lg.lookup sc name) fun ans => ?_
  split <;> exact lg.pure _

theorem lookupInUnit (id : NodeId) (name : String) : Good (Resolution.lookupInUnit id name) := by
  refine lg.bind lg.tree fun tree => ?_
  split
  · exact lg.pure _
  · split
    · refine lg.bind (lg.typedefType _) fun ty => ?_
      split <;> exact lg.pure _
    · split
      · exact lg.bind (lg.onPool (PoolM.grows_intern _)) fun _ => lg.pure _
      · exact lg.pure _

theorem lookupName (sc : String) (id : NodeId) (name : String) :
    Good (Resolution.lookupName sc id name) := by
  unfold Resolution.lookupName
  split
  · exact lg.lookupSymbol _ _
  · refine lg.bind (lg.lookupInUnit _ _) fun ans => ?_
    split
    · exact lg.pure _
    · exact lg.lookupSymbol _ _

end LookupLogic

namespace StepLogic

variable {Good : ∀ {α : Type}, WorkM α → Prop} (lg : StepLogic @Good)

include lg

theorem refuse {α : Type} (code : Code) (id : NodeId) (args : List String) (ans : α) :
    Good (reportAt code id args >>= fun _ => Pure.pure ans) :=
  lg.bind (lg.report code id args) fun _ => lg.pure _

theorem validateName (id : NodeId) (name : String) : Good (Validation.validateName id name) := by
  refine lg.bind lg.tree fun tree => ?_
  split
  · exact lg.pure _
  · exact lg.pure _
  · exact lg.refuse _ _ _ _
  · exact lg.refuse _ _ _ _
  · exact lg.throw _

theorem checkOperands (id : NodeId) (first : ConstId) (others : List ConstId)
    (left right : ConstId) : Good (Validation.checkOperands id first others left right) := by
  unfold Validation.checkOperands
  dsimp only
  split
  · exact lg.pure _
  · exact lg.bind (lg.describe _) fun _ => lg.bind (lg.describe _) fun _ =>
      lg.refuse _ _ _ _

theorem checkComparable (id : NodeId) (left right : ConstId) :
    Good (Validation.checkComparable id left right) := by
  refine lg.bind (lg.fit _ _) fun fit => ?_
  split
  · exact lg.pure _
  · refine lg.bind (lg.fit _ _) fun fit => ?_
    split
    · exact lg.pure _
    · exact lg.bind (lg.describe _) fun _ => lg.bind (lg.describe _) fun _ =>
        lg.refuse _ _ _ _

theorem binaryType (id : NodeId) (int boolean string : ConstId) (op : BinaryOp)
    (left right : ConstId) : Good (Validation.binaryType id int boolean string op left right) := by
  have operands : ∀ {others} {ans : ConstId}, Good (do
      Pure.pure (if ← Validation.checkOperands id int others left right then some ans else none)) :=
    lg.bind (lg.checkOperands _ _ _ _ _) fun _ => lg.pure _
  have compared : Good (do
      Pure.pure (if ← Validation.checkComparable id left right then some boolean else none)) :=
    lg.bind (lg.checkComparable _ _ _) fun _ => lg.pure _
  cases op with
  | lt | le | gt | ge => exact lg.bind (lg.named _) fun _ => operands
  | eq | ne => exact compared
  | sub | mul | div | mod | and | or => exact operands
  | add =>
    show Good (if left = string ∨ right = string then _ else _)
    split
    · exact lg.pure _
    · exact operands

theorem checkLabel (id : NodeId) : Good (Jump.checkLabel id) := by
  refine lg.bind lg.tree fun tree => ?_
  split
  · exact lg.pure _
  · split
    · exact lg.refuse _ _ _ _
    · exact lg.pure _

end StepLogic

/-- The parts that a check has found valid. -/
def Validation.checked (ps : List NodeId) (ok : Bool) : List NodeId := if ok then ps else []

theorem Validation.checked_subset {ps given : List NodeId} {ok : Bool}
    (all : ok = true → ps ⊆ given) : checked ps ok ⊆ given := by
  cases ok with
  | false => simp [checked]
  | true => simpa [checked] using all rfl

/-- What is left of an arm once a second default has been reported. -/
def Validation.Validator.armRest (vd : Validator) (rets : List ConstId) (ty : Option ConstId)
    (arms : Arms) (vals : List NodeId) (body : NodeId) : WorkM (Bool × Arms) := do
  let (valuesOk, seen) ← vd.armValuesOk ty arms.seen vals
  let bodyOk ← vd.nodeOk rets body
  pure (!(vals.isEmpty && arms.hasDefault) && valuesOk && bodyOk,
    { seen, hasDefault := arms.hasDefault || vals.isEmpty })

/-- A tuple of a type, with its constant if all its elements have one. -/
def Validation.withValues (entries : List (ConstId × Option ConstId)) (ty : ConstId) :
    WorkM (Option Typed) := do
  match allThere (entries.map Prod.snd) with
  | some vals => pure (some (ty, some (← onPool (.tuple vals))))
  | none => pure (some (ty, none))

/-- An expression is settled with the type that is found for it. -/
def Validation.settling (id : NodeId) (req : Option ConstId) (find : WorkM (Option Typed)) :
    WorkM (Option NodeId) := do
  match ← find with
  | some (ty, k) => settleExpr id req ty k
  | none => pure none

/-- What may be said of steps that check the parts of a node: which parts are valid once a step has
an answer, if others were found valid before. -/
structure PartLogic (gd : Guide)
    (Good : ∀ {α : Type}, List NodeId → WorkM α → (α → List NodeId) → Prop) : Prop
    extends StepLogic fun step => Good [] step fun _ => [] where
  visited : ∀ {id}, gd.follows id → gd.visits id
  done : ∀ {α : Type} {given : List NodeId} {a : α} {gives : α → List NodeId}, gives a ⊆ given →
    Good given (Pure.pure a) gives
  next : ∀ {α β : Type} {given : List NodeId} {step : WorkM α} {first : α → List NodeId}
    {rest : α → WorkM β} {gives : β → List NodeId}, Good [] step first →
    (∀ a, Good (given ++ first a) (rest a) gives) → Good given (step >>= rest) gives
  last : ∀ {α : Type} {given : List NodeId} {step : WorkM α} {first gives : α → List NodeId},
    Good [] step first → (∀ a, gives a ⊆ given ++ first a) → Good given step gives
  refused : ∀ {defect : Defect} {gives : Bool → List NodeId},
    Good [] (MonadExcept.throw defect : WorkM Bool) gives

/-- How the parts of a statement are validated. -/
structure Validation.Validator.Parts (vd : Validator) (gd : Guide)
    (Good : ∀ {α : Type}, List NodeId → WorkM α → (α → List NodeId) → Prop) : Prop where
  type : ∀ {id}, gd.visits id → Good [] (vd.type id) fun type => checked [id] type.isSome
  expr : ∀ {id} req, gd.visits id →
    Good [] (vd.expr id req) fun res => checked [id] res.isSome
  stmt : ∀ rets {id}, gd.follows id →
    Good [] (vd.stmt rets id) fun res => checked [id] res.isSome
  condDecl : ∀ {type v}, gd.visits type → gd.visits v →
    Good [] (vd.condDeclOk type v) (checked [type, v])

namespace PartLogic

variable {gd : Guide} {Good : ∀ {α : Type}, List NodeId → WorkM α → (α → List NodeId) → Prop}
  (lg : PartLogic gd @Good) {given : List NodeId} {vd : Validator}
  (ps : vd.Parts gd @Good)

include lg

theorem held {ok : Bool} {ps : List NodeId} (all : ok = true → ps ⊆ given) :
    Good given (Pure.pure ok) (checked ps) := lg.done (checked_subset all)

theorem checkAll {α : Type} {check : α → WorkM Bool} {entries : List α} (node : α → NodeId)
    (each : ∀ entry ∈ entries, Good [] (check entry) (checked [node entry])) :
    Good [] (Validation.checkAll check entries) (checked (entries.map node)) := by
  induction entries with
  | nil => exact lg.held (by simp)
  | cons entry rest ih =>
    exact lg.next (each entry (by simp)) fun _ => lg.next (ih fun x mem =>
      each x (by simp [mem])) fun _ => lg.held fun all => by simp_all [checked]

include ps

theorem node (rets : List ConstId) (hf : gd.follows id) :
    Good [] (vd.node rets id) fun res => checked [id] res.isSome := by
  refine lg.next lg.tree fun tree => ?_
  split
  · exact ps.expr none (lg.visited hf)
  · exact lg.next (ps.type (lg.visited hf)) fun _ => lg.done (by simp)
  · exact ps.stmt rets hf
  · exact ps.stmt rets hf

theorem nodeOk (rets : List ConstId) (hf : gd.follows id) :
    Good [] (vd.nodeOk rets id) (checked [id]) :=
  lg.next (lg.node ps rets hf) fun _ => lg.done (by simp)

theorem exprOk (visits : gd.visits id) (req : Option ConstId) :
    Good [] (vd.exprOk id req) (checked [id]) :=
  lg.next (ps.expr req visits) fun _ => lg.done (by simp)

theorem typeOk (visits : gd.visits id) : Good [] (vd.typeOk id) (checked [id]) :=
  lg.next (ps.type visits) fun _ => lg.done (by simp)

theorem nodesOk (rets : List ConstId) (hf : ∀ id ∈ ids, gd.follows id) :
    Good [] (vd.nodesOk rets ids) (checked ids) := by
  have each := lg.checkAll (fun id => id) fun id mem => lg.nodeOk ps rets (hf id mem)
  rwa [List.map_id'] at each

theorem paramsOk (seen : List String) (visits : ∀ param ∈ qs, gd.visits param.type) :
    Good [] (vd.paramsOk seen qs) (checked (qs.map Param.type)) := by
  induction qs generalizing seen with
  | nil => exact lg.held (by simp)
  | cons param rest ih =>
    have later := fun seen => ih seen fun x mem => visits x (by simp [mem])
    refine lg.next (lg.typeOk ps (visits param (by simp))) fun _ => ?_
    dsimp only
    split
    · exact lg.next (lg.report _ _ _) fun _ => lg.next (later _) fun _ =>
        lg.held fun all => by simp_all
    · exact lg.next (later _) fun _ => lg.held fun all => by simp_all [checked]

theorem returnTypes (visits : ∀ id ∈ ids, gd.visits id) :
    Good [] (vd.returnTypes ids) fun types => checked ids types.isSome := by
  have all : Good [] (ids.mapM vd.type) fun types => checked ids (allThere types).isSome := by
    induction ids with
    | nil =>
      rw [List.mapM_nil]
      exact lg.done (by simp [checked])
    | cons id rest ih =>
      rw [List.mapM_cons]
      exact lg.next (ps.type (visits id (by simp))) fun ty =>
        lg.next (ih fun x mem => visits x (by simp [mem])) fun _ =>
        lg.done (checked_subset fun all => by cases ty <;> simp_all [checked, allThere])
  exact lg.next all fun _ => lg.done (by simp)

theorem methodOk {results : List NodeId} (visitsParams : ∀ param ∈ qs, gd.visits param.type)
    (visitsResults : ∀ id ∈ results, gd.visits id) (hf : gd.follows body) :
    Good [] (vd.methodOk qs results body)
      (checked (qs.map Param.type ++ results ++ [body])) := by
  refine lg.next (lg.paramsOk ps [] visitsParams) fun _ =>
    lg.next (lg.returnTypes ps visitsResults) fun types => ?_
  split
  · exact lg.last (lg.nodeOk ps _ hf) fun _ => checked_subset fun all => by
      simp_all [checked]
  · exact lg.held (by simp)

theorem varDeclOk {ty : NodeId} {init : Option NodeId} (visits : gd.visits ty)
    (visitsInit : ∀ id ∈ init, gd.visits id) :
    Good [] (vd.varDeclOk ty init) (checked (ty :: init.toList)) := by
  refine lg.next (ps.type visits) fun hf => ?_
  split
  · exact lg.last (lg.exprOk ps (visitsInit _ rfl) _) fun _ => checked_subset fun all => by
      simp_all [checked]
  · exact lg.held (by simp [checked])
  · exact lg.held (by simp)

theorem assignOk {tgt : NodeId} (visits : gd.visits tgt) (visitsValue : gd.visits v) :
    Good [] (vd.assignOk tgt v) (checked [tgt, v]) := by
  refine lg.next lg.tree fun tree => ?_
  dsimp only
  split
  · refine lg.next (ps.expr none visits) fun ans => ?_
    split
    · exact lg.held (by simp)
    · exact lg.next (lg.facts _) fun _ => lg.last (lg.exprOk ps visitsValue _)
        fun _ => checked_subset fun all => by simp_all [checked]
  · split
    · exact lg.next (lg.report _ _ _) fun _ => lg.held (by simp)
    · exact lg.held (by simp)

theorem condOk (rets : List ConstId) {cond : NodeId} (hf : gd.follows cond) :
    Good [] (vd.condOk rets cond) (checked [cond]) := by
  refine lg.next lg.tree fun tree => ?_
  split
  · exact lg.next (ps.stmt rets hf) fun _ => lg.done (by simp)
  · exact lg.next (lg.named _) fun _ =>
      lg.last (lg.exprOk ps (lg.visited hf) _) (by simp)

theorem condsOk (rets : List ConstId) (hf : ∀ id ∈ conds, gd.follows id) :
    Good [] (vd.condsOk rets conds) (checked conds) := by
  have each := lg.checkAll (fun id => id) fun id mem => lg.condOk ps rets (hf id mem)
  rwa [List.map_id'] at each

theorem whileOk (rets : List ConstId) (id : NodeId)
    (testLast : Bool) (followsConds : ∀ cond ∈ conds, gd.follows cond)
    (hf : gd.follows body) :
    Good [] (vd.whileOk rets id conds body testLast) (checked (conds ++ [body])) := by
  refine lg.next (lg.condsOk ps rets followsConds) fun _ =>
    lg.next (lg.nodeOk ps rets hf) fun _ => ?_
  split
  · refine lg.next (lg.alwaysTrue id) fun always => ?_
    split
    · refine lg.next lg.tree fun tree => ?_
      split
      · exact lg.next (lg.report _ _ _) fun _ => lg.held (by simp)
      · exact lg.held fun _ => by simp_all [checked]
    · exact lg.held fun _ => by simp_all [checked]
  · exact lg.held fun all => by simp_all [checked]

theorem armValuesOk (ty : Option ConstId) (seen : List ConstId) (visits : ∀ v ∈ vals, gd.visits v) :
    Good [] (vd.armValuesOk ty seen vals) fun ans => checked vals ans.1 := by
  induction vals generalizing seen with
  | nil => exact lg.done (by simp [checked])
  | cons v rest ih =>
    have later := fun seen => ih seen fun x mem => visits x (by simp [mem])
    refine lg.next (ps.expr ty (visits v (by simp))) fun ans => ?_
    split
    · exact lg.next (later _) fun _ => lg.done (by simp [checked])
    · refine lg.next (lg.facts _) fun facts => ?_
      split
      · exact lg.next (lg.report _ _ _) fun _ => lg.next (later _) fun _ =>
          lg.done (by simp [checked])
      · refine lg.next (lg.canonical _) fun canonical => ?_
        split
        · exact lg.next (lg.describe _) fun _ => lg.next (lg.report _ _ _) fun _ =>
            lg.next (later _) fun _ => lg.done (by simp [checked])
        · exact lg.last (later _) fun _ => checked_subset fun all => by simp_all [checked]

theorem switchOk (rets : List ConstId) {cases : List NodeId} (visits : gd.visits v)
    (arms : ∀ ty, Good [] (vd.armsOk rets ty {} cases) (checked cases)) :
    Good [] (vd.switchOk rets v cases) (checked (v :: cases)) := by
  refine lg.next (ps.expr none visits) fun ans => ?_
  split
  · exact lg.held (by simp)
  · exact lg.next (lg.facts _) fun _ => lg.last (arms _) fun _ =>
      checked_subset fun all => by simp_all [checked]

theorem returnOk (rets : List ConstId) (id : NodeId) (visits : ∀ v ∈ vals, gd.visits v) :
    Good [] (vd.returnOk rets id vals) (checked vals) := by
  unfold Validator.returnOk
  split
  · rename_i he
    have each := lg.checkAll Prod.fst fun entry (mem : entry ∈ vals.zip rets) =>
      lg.exprOk ps (visits entry.1 (List.of_mem_zip mem).1) (some entry.2)
    rwa [List.map_fst_zip (Nat.le_of_eq he)] at each
  · exact lg.next (lg.report _ _ _) fun _ => lg.held (by simp)

/-- A statement is followed through its parts, whatever its form. How the statements of a block and
the arms of a switch are followed is left open. -/
theorem stmtOk (rets : List ConstId) {stmt : Stmt} (jump : Good [] (Jump.resolve id) fun _ => [])
    (hf : ∀ c ∈ stmt.children, gd.follows c)
    (block : ∀ stmts, stmt = .block stmts → Good [] (vd.blockOk rets [] stmts) (checked stmts))
    (arms : ∀ v cases, stmt = .switch v cases → ∀ ty,
      Good [] (vd.armsOk rets ty {} cases) (checked cases)) :
    Good [] (vd.stmtOk rets id stmt) (checked stmt.children) := by
  have visits : ∀ c ∈ stmt.children, gd.visits c := fun c mem =>
    lg.visited (hf c mem)
  cases stmt with
  | container name members => exact lg.nodesOk ps rets hf
  | method name qs results body =>
    exact lg.methodOk ps
      (fun param mem => visits param.type (by
        simp only [Stmt.children, List.mem_append, List.mem_map]
        exact .inl (.inl ⟨param, mem, rfl⟩)))
      (fun res mem => visits res (by simp [Stmt.children, mem]))
      (hf body (by simp [Stmt.children]))
  | block stmts => exact block stmts rfl
  | evaluate expr => exact lg.exprOk ps (visits expr (by simp [Stmt.children])) _
  | varDecl ty name init =>
    exact lg.varDeclOk ps (visits ty (by simp [Stmt.children]))
      (fun c mem => visits c (by cases mem; simp [Stmt.children]))
  | assign tgt v =>
    exact lg.assignOk ps (visits tgt (by simp [Stmt.children])) (visits v (by simp [Stmt.children]))
  | typedef name ty => exact lg.typeOk ps (visits ty (by simp [Stmt.children]))
  | ifElse conds thenBranch els =>
    exact lg.next (lg.condsOk ps rets fun c mem =>
        hf c (by simp [Stmt.children, mem])) fun _ =>
      lg.next (lg.nodesOk ps rets fun c mem =>
        hf c (by simp only [Stmt.children, List.mem_append]; exact .inr mem)) fun _ =>
      lg.held fun all => by simp_all [checked, Stmt.children]
  | whileLoop conds body testLast =>
    exact lg.whileOk ps rets id testLast (fun c mem => hf c (by simp [Stmt.children, mem]))
      (hf body (by simp [Stmt.children]))
  | forLoop init conds updates body =>
    exact lg.next (lg.nodesOk ps rets fun c mem =>
        hf c (by simp [Stmt.children, mem])) fun _ =>
      lg.next (lg.condsOk ps rets fun c mem =>
        hf c (by simp [Stmt.children, mem])) fun _ =>
      lg.next (lg.nodesOk ps rets fun c mem =>
        hf c (by simp [Stmt.children, mem])) fun _ =>
      lg.next (lg.nodeOk ps rets (hf body (by simp [Stmt.children]))) fun _ =>
      lg.held fun all => by simp_all [checked, Stmt.children]
  | switch v cases =>
    exact lg.switchOk ps rets (visits v (by simp [Stmt.children])) (arms v cases rfl)
  | arm vals body => exact lg.refused
  | labeled l body =>
    exact lg.next (lg.checkLabel id) fun _ =>
      lg.next (lg.nodeOk ps rets (hf body (by simp [Stmt.children]))) fun _ =>
      lg.held fun all => by simp_all [checked, Stmt.children]
  | breakOut l | continueLoop l =>
    exact lg.next jump fun _ => lg.held (by simp [Stmt.children])
  | returnValues vals => exact lg.returnOk ps rets id visits
  | condDecl ty name v =>
    exact ps.condDecl (visits ty (by simp [Stmt.children])) (visits v (by simp [Stmt.children]))

end PartLogic

/-- What is said of a step whatever parts are valid. -/
abbrev Ungraded (Good : ∀ {α : Type}, WorkM α → Prop) {α : Type} (_ : List NodeId) (step : WorkM α)
    (_ : α → List NodeId) : Prop := Good step

/-- How the parts of a statement are validated, whichever turn out valid. -/
abbrev Validation.Validator.Checks (vd : Validator) (gd : Guide)
    (Good : ∀ {α : Type}, WorkM α → Prop) : Prop := vd.Parts gd (Ungraded @Good)

/-- What may be said of steps that change stages and bind jumps where a guide lets them. -/
structure CheckLogic (gd : Guide) (Good : ∀ {α : Type}, WorkM α → Prop) : Prop
    extends StepLogic @Good where
  visited : ∀ {id}, gd.follows id → gd.visits id
  stood : ∀ {id}, gd.follows id → gd.stands id id ∧ gd.passes id
  /-- Where the tree is looked at, it bears out the guide. -/
  guided : ∀ {α : Type} {next : Tree → WorkM α}, (∀ tree : Tree, (∀ {id stmt c}, gd.follows id →
    tree.stmt? id = some stmt → c ∈ stmt.children → gd.follows c) → Good (next tree)) →
    Good (WorkM.tree >>= next)
  fail : ∀ {id}, gd.visits id → Good (setStage id .failed)
  start : ∀ {id}, gd.visits id → Good (Validation.start id)
  conclude : ∀ {id res}, gd.visits id →
    (∀ node ∈ res, gd.stands id node ∧ gd.passes id) → Good (Validation.conclude id res)
  jump : ∀ {id}, gd.follows id → Good (Jump.resolve id)

namespace CheckLogic

variable {gd : Guide} {Good : ∀ {α : Type}, WorkM α → Prop} (lg : CheckLogic gd @Good)
  {vd : Validator} (ps : vd.Checks gd @Good)

include lg

theorem toParts : PartLogic gd (Ungraded @Good) where
  toStepLogic := lg.toStepLogic
  visited := lg.visited
  done _ := lg.pure _
  next first rest := lg.bind first rest
  last good _ := good
  refused := lg.throw _

include ps

theorem blockOk (rets : List ConstId) (declared : List String)
    (hf : ∀ id ∈ ids, gd.follows id) : Good (vd.blockOk rets declared ids) := by
  induction ids generalizing declared with
  | nil => exact lg.pure _
  | cons id rest ih =>
    have later := fun declared => ih declared fun x mem => hf x (by simp [mem])
    have here := lg.toParts.nodeOk ps rets (hf id (by simp))
    refine lg.bind lg.tree fun tree => ?_
    split
    · split
      · exact lg.bind (lg.report _ _ _) fun _ =>
          lg.bind (lg.fail (lg.visited (hf id (by simp)))) fun _ =>
          lg.bind (later _) fun _ => lg.pure _
      · exact lg.bind here fun _ => lg.bind (later _) fun _ => lg.pure _
    · exact lg.bind here fun _ => lg.bind (later _) fun _ => lg.pure _

theorem armOk (rets : List ConstId) (ty : Option ConstId) (arms : Validator.Arms)
    (hfo : gd.follows id) : Good (vd.armOk rets ty arms id) := by
  refine lg.guided fun tree bears => ?_
  split
  · rename_i vals body hf
    have followsChild : ∀ c ∈ vals ++ [body], gd.follows c :=
      fun c mem => bears hfo hf mem
    have visits : ∀ v ∈ vals, gd.visits v := fun v mem =>
      lg.visited (followsChild v (by simp [mem]))
    have rest : Good (vd.armRest rets ty arms vals body) :=
      lg.bind (lg.toParts.armValuesOk ps ty arms.seen visits) fun _ =>
        lg.bind (lg.toParts.nodeOk ps rets (followsChild body (by simp))) fun _ => lg.pure _
    dsimp only
    split
    · exact lg.bind (lg.report _ _ _) fun _ => rest
    · exact rest
  · exact lg.throw _

theorem armsOk (rets : List ConstId) (ty : Option ConstId) (arms : Validator.Arms)
    (hf : ∀ id ∈ ids, gd.follows id) : Good (vd.armsOk rets ty arms ids) := by
  induction ids generalizing arms with
  | nil => exact lg.pure _
  | cons id rest ih =>
    have later := fun arms => ih arms fun x mem => hf x (by simp [mem])
    have here := hf id (by simp)
    refine lg.bind (lg.start (lg.visited here)) fun he => ?_
    split
    · exact lg.bind (later _) fun _ => lg.pure _
    · refine lg.bind (lg.armOk ps rets ty arms here) fun (ok, arms) => ?_
      have hs : ∀ node ∈ (if ok then some id else none), gd.stands id node ∧ gd.passes id := by
        intro node mem
        cases ok <;> cases mem
        exact lg.stood here
      exact lg.bind (lg.conclude (lg.visited here) hs) fun _ =>
        lg.bind (later _) fun _ => lg.pure _

theorem stmtOk (rets : List ConstId) {stmt : Stmt} (here : gd.follows id)
    (hf : ∀ c ∈ stmt.children, gd.follows c) : Good (vd.stmtOk rets id stmt) := by
  refine lg.toParts.stmtOk ps rets (lg.jump here) hf ?_ ?_
  · rintro stmts rfl
    exact lg.blockOk ps rets [] hf
  · rintro v cases rfl ty
    exact lg.armsOk ps rets ty {} fun c mem => hf c (by simp [Stmt.children, mem])

end CheckLogic

end TreeCompiler
