import TreeCompiler.Proofs.Steps

/-!
# The steps of emission

What each basic step of emission does to the state of emission when it succeeds.
-/

namespace TreeCompiler

variable {l : Label} {u : Unit} {id : NodeId}

variable {buf t : Buffer} {α : Type} {reg : Register} {decl : NodeId} {warn : Bool}
  {m : Method}

/-- What emission leaves as it is about a node: everything but its stage, whether it is reached, and
its label scope. -/
def Facts.lasting (facts : Facts) : Facts :=
  { facts with stage := .initial, reachable := none, labelScope := none }

namespace Emission

/-- The state with another tree. -/
def withTree (emission : Emission) (tree : Tree) : Emission :=
  { emission with work := { emission.work with tree } }

/-- The state after a step on the code. -/
def withCode (emission : Emission) (code : Buffer) : Emission :=
  { emission with code, passed := emission.code :: emission.passed }

/-- The state after a diagnostic. -/
def reported (emission : Emission) (diag : Diagnostic) : Emission :=
  { emission with work := { emission.work with sink := emission.work.sink.report diag } }

/-- The state once a node has a label scope. -/
def withScope (emission : Emission) (own : NodeId) : Emission :=
  let (_, tree, labels) := emission.work.tree.labelScope own emission.work.labels
  { emission with work := { emission.work with tree, labels } }

/-- The state with a register for a declaration. -/
def bound (emission : Emission) (decl : NodeId) : Emission :=
  { emission with
    code := emission.code.newRegister.2
    locals := (decl, emission.code.newRegister.1) :: emission.locals
    passed := emission.code :: emission.passed }

end Emission

namespace Buffer

/-- The buffer with a label placed where control can arrive from now on. -/
def entered (buf : Buffer) (l : Label) : Buffer :=
  { buf.bind l with reachable := true }

/-- The buffer with a label placed where control arrives if it did before or a jump goes there. -/
def joined (buf : Buffer) (l : Label) : Buffer :=
  { buf.bind l with reachable := buf.reachable || buf.isReferenced l }

theorem place_ok : buf.place l = (.ok u, t) ↔ buf.offset? l = none ∧ t = buf.entered l := by
  unfold place bindThen entered
  cases hf : buf.offset? l <;> simp [eq_comm]

theorem placeJoin_ok : buf.placeJoin l = (.ok u, t) ↔
      buf.offset? l = none ∧ t = buf.joined l := by
  unfold placeJoin bindThen joined
  cases hf : buf.offset? l <;> simp [eq_comm, bind, isReferenced]

end Buffer

namespace EmitM

open Step

variable {e e' : Emission}

@[simp] theorem tree_ok {tree : Tree} :
    EmitM.tree e = .ok tree e' ↔ e.work.tree = tree ∧ e = e' := by
  simp only [EmitM.tree, bind_ok, get_ok, pure_ok]
  grind

@[simp] theorem facts_ok {facts : Facts} :
    EmitM.facts id e = .ok facts e' ↔ e.work.tree.facts id = facts ∧ e = e' := by
  simp only [EmitM.facts, bind_ok, tree_ok, pure_ok]
  grind

@[simp] theorem setStage_ok {stage : Stage} :
    EmitM.setStage id stage e = .ok u e' ↔ e.withTree (e.work.tree.setStage id stage) = e' := by
  simp [EmitM.setStage, onWork, WorkM.setStage, WorkM.changeTree, modify, modifyGet,
    MonadStateOf.modifyGet, EStateM.modifyGet, Emission.withTree]

/-- The change of a node's facts that notes whether it is reached. -/
def noteReachable (reachable : Bool) (facts : Facts) : Facts :=
  { facts with reachable := some reachable }

@[simp] theorem setReachable_ok {reachable : Bool} :
    EmitM.setReachable id reachable e = .ok u e' ↔
      e.withTree (e.work.tree.modifyFacts id (noteReachable reachable)) = e' := by
  have eq : noteReachable reachable = fun facts => { facts with reachable := some reachable } := rfl
  simp [EmitM.setReachable, onWork, WorkM.modifyFacts, WorkM.changeTree, modify, modifyGet,
    MonadStateOf.modifyGet, EStateM.modifyGet, Emission.withTree, eq]

@[simp] theorem report_ok {diag : Diagnostic} :
    onWork (.report diag) e = .ok u e' ↔ e.reported diag = e' := by
  simp [onWork, WorkM.report, modify, modifyGet, MonadStateOf.modifyGet, EStateM.modifyGet, Emission.reported]

@[simp] theorem reportAt_ok {code : Code} {args : List String} :
    onWork (.reportAt code id args) e = .ok u e' ↔
      e.reported (.errorAt code args (e.work.tree.span id)) = e' := by
  simp [onWork, WorkM.reportAt, WorkM.tree, WorkM.report, modify, modifyGet, bind, EStateM.bind, get,
    getThe, MonadStateOf.get, EStateM.get, pure, EStateM.pure, MonadStateOf.modifyGet,
    EStateM.modifyGet, Emission.reported]

@[simp] theorem readPool_ok {look : Pool → Except PoolError α} {a : α} :
    onWork (.readPool look) e = .ok a e' ↔ look e.work.pool = .ok a ∧ e = e' := by
  cases hf : look e.work.pool <;>
    simp [onWork, WorkM.readPool, WorkM.onPool, PoolM.read, bind, EStateM.bind, get, getThe,
      MonadStateOf.get, EStateM.get, hf, pure, EStateM.pure, throw, throwThe, MonadExceptOf.throw,
      EStateM.throw]

@[simp] theorem add_ok {op : Op} :
    EmitM.add op e = .ok u e' ↔ e.withCode (e.code.add op) = e' := by
  simp [EmitM.add, onCode, Emission.withCode]

theorem tryCode_ok {step : Buffer → Except CodeError α × Buffer} {a : α} :
    EmitM.tryCode step e = .ok a e' ↔
      ∃ code, step e.code = (.ok a, code) ∧ e.withCode code = e' := by
  simp only [EmitM.tryCode, onCode, bind_ok, modifyGet_ok]
  constructor
  · rintro ⟨res, u, ran, ended⟩
    rcases stepped : step e.code with ⟨v, code⟩
    simp only [stepped, Prod.mk.injEq] at ran
    obtain ⟨rfl, rfl⟩ := ran
    cases v with
    | ok v =>
      cases ended
      exact ⟨code, rfl, rfl⟩
    | error error => simp at ended
  · rintro ⟨code, stepped, rfl⟩
    exact ⟨.ok a, e.withCode code, by simp [stepped, Emission.withCode], by simp⟩

@[simp] theorem place_ok : EmitM.place l e = .ok u e' ↔
      e.code.offset? l = none ∧ e.withCode (e.code.entered l) = e' := by
  simp only [EmitM.place, tryCode_ok, Buffer.place_ok]
  grind

@[simp] theorem placeJoin_ok : EmitM.placeJoin l e = .ok u e' ↔
      e.code.offset? l = none ∧ e.withCode (e.code.joined l) = e' := by
  simp only [EmitM.placeJoin, tryCode_ok, Buffer.placeJoin_ok]
  grind

@[simp] theorem newRegister_ok : EmitM.newRegister e = .ok reg e' ↔
      e.code.newRegister.1 = reg ∧ e.withCode e.code.newRegister.2 = e' := by
  simp [EmitM.newRegister, onCode, Emission.withCode]

@[simp] theorem newHelper_ok : EmitM.newHelper e = .ok l e' ↔
      e.code.newHelper.1 = l ∧ e.withCode e.code.newHelper.2 = e' := by
  simp [EmitM.newHelper, onCode, Emission.withCode]

@[simp] theorem label_ok {own : NodeId} {kind : LabelKind} :
    EmitM.label own kind e = .ok l e' ↔
      ⟨(e.work.tree.labelScope own e.work.labels).1, kind⟩ = l ∧ e.withScope own = e' := by
  simp only [EmitM.label, bind_ok, pure_ok, Emission.withScope]
  simp only [onWork, WorkM.labelScope, modifyGet, MonadStateOf.modifyGet, EStateM.modifyGet]
  grind

@[simp] theorem register?_ok {reg : Option Register} :
    EmitM.register? decl e = .ok reg e' ↔ e.locals.lookup decl = reg ∧ e = e' := by
  simp only [EmitM.register?, bind_ok, get_ok, pure_ok]
  grind

@[simp] theorem bindRegister_ok : EmitM.bindRegister decl e = .ok reg e' ↔
      e.code.newRegister.1 = reg ∧ e.bound decl = e' := by
  simp only [EmitM.bindRegister, bind_ok, newRegister_ok, modify_ok, pure_ok,
    Emission.withCode, Emission.bound]
  grind

end EmitM

namespace Emission

open Step EmitM

variable {e e' : Emission}

/-- How a method is emitted: parameters, body, end, and the finished code. -/
theorem emitMethod_ok (done : emitMethod warn id e = .ok m e') :
    ∃ name ps rets body bound through ended,
      e.work.tree.stmt? id = some (.method name ps rets body) ∧
      bindParams ps e = .ok () bound ∧ emitBody warn body bound = .ok () through ∧
      emitEnd id name rets through = .ok () ended ∧
      e' = (ended.withTree (ended.work.tree.setStage id .emitted)).withCode ended.code ∧
      e'.code.finish name = .ok m := by
  replace done := rest_ok done rfl
  cases hf : e.work.tree.stmt? id with
  | none => simp [hf] at done
  | some stmt =>
    rw [hf] at done
    cases stmt
    case method name ps rets body =>
      obtain ⟨⟨⟩, bound, ranParams, done⟩ := bind_ok.mp done
      obtain ⟨⟨⟩, through, ranBody, done⟩ := bind_ok.mp done
      obtain ⟨⟨⟩, ended, ranEnd, done⟩ := bind_ok.mp done
      obtain ⟨u, hs, ranStage, done⟩ := bind_ok.mp done
      cases ranStage
      obtain ⟨code, finished, rfl⟩ := tryCode_ok.mp done
      obtain ⟨built, rfl⟩ := Prod.mk.inj finished
      exact ⟨name, ps, rets, body, bound, through, ended, rfl, ranParams, ranBody, ranEnd, rfl, built⟩
    all_goals simp at done

theorem method_ok {w t : Work} : Emission.method warn id w = .ok m t ↔
      ∃ e' : Emission, emitMethod warn id { work := w } = .ok m e' ∧ e'.work = t := by
  unfold Emission.method
  cases emitMethod warn id { work := w } <;> simp

/-- Control runs through to the end of a finished method only if a serious diagnostic is
reported. -/
theorem emitEnd_ok {name : String} {rets : List NodeId}
    (done : emitEnd id name rets e = .ok () e') : (e.code.reachable = false ∧ e' = e) ∨
      (e.code.reachable = true ∧ rets = [] ∧ e' = e.withCode (e.code.add .returnNothing)) ∨
      (e.code.reachable = true ∧ ∃ span, e' = e.reported (.errorAt .returnRequired [name] span)) := by
  replace done := rest_ok done rfl
  cases hr : e.code.reachable with
  | false =>
    simp only [hr, Bool.false_eq_true, ↓reduceIte, pure_ok, true_and] at done
    exact .inl ⟨rfl, done.symm⟩
  | true =>
    simp only [hr, ↓reduceIte] at done
    split at done
    · rename_i none
      exact .inr (.inl ⟨rfl, by simpa using none, (add_ok.mp done).symm⟩)
    · exact .inr (.inr ⟨rfl, _, (reportAt_ok.mp done).symm⟩)

end Emission

end TreeCompiler
