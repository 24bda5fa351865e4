import TreeCompiler.Proofs.EmitterSafety

/-!
# Rules of emitted code

Methods of a unit that was built, resolved and validated are emitted without an error of code. Their
code keeps its rules: labels are placed once, jumps go to placed labels, registers are there, and
every position has one number of open scopes.
-/

namespace TreeCompiler

open Step

variable {id body : NodeId} {name : String} {ps : List Param} {rets : List NodeId}

variable {w : Work} {tree : Tree} {resolved validated : Course} {cap : Option Nat}
  {outcome : Outcome} {root : NodeId}

/-- What holds of a unit between the emission of two methods. -/
structure Plan.Carries (plan : Plan) (w : Work) : Prop where
  settled : w.Settled plan.start plan.root
  waiting : ∀ id, w.tree.stage id = .validated → (plan.start.stmt? id).isSome → plan.start.Hosts plan.root id
  broken : ∀ id, (w.tree.facts id).breakUsed = plan.broken id

/-- The frame around a method. -/
def Frame.outermost : Frame := ⟨.none, [], [], 0⟩

namespace Emission

open EmitM

variable {plan : Plan} {fr : Frame} {n : Nat} {e : Emission}

theorem Fits.carries (fits : e.Fits plan fr n) : plan.Carries e.work :=
  ⟨fits.settled, fits.waiting, fits.broken⟩

theorem fits_start (carries : plan.Carries w) :
    ({ work := w } : Emission).Fits plan .outermost 0 where
  settled := carries.settled
  waiting := carries.waiting
  broken := carries.broken
  sound := Buffer.sound_empty
  balanced := Buffer.balanced_empty
  past := Buffer.recalls_empty
  taken l used := by
    rcases used with hp | used
    · simp [Buffer.offset?] at hp
    · exact absurd ⟨rfl, rfl⟩ used
  owned own sc mem := by simp [Frame.outermost] at mem
  registers op mem := by simp at mem
  locals decl reg hf := by simp at hf
  floor := Nat.le_refl 0

theorem safe_bindParams (fits : e.Fits plan fr n) (ps : List Param) :
    Safe (bindParams ps) e fun _ e' => e'.Fits plan fr n ∧ e'.work = e.work := by
  induction ps generalizing e with
  | nil => exact Safe.pure ⟨fits, rfl⟩
  | cons param rest ih =>
    exact ih (fits.bound param.type)

/-- The body of a method stands where no scope is open and no jump leads out. -/
theorem ready_body (peels : plan.start.Peels tree)
    (hf : tree.stmt? id = some (.method name ps rets body))
    (hosts : plan.start.Hosts plan.root id) : plan.Ready .outermost 0 body := by
  intro hs
  have isChild : body ∈ plan.start.children id :=
    peels.child_of_stmt hf (by simp [Stmt.children]) hs
  have hm : plan.start.isMethod id = true := by
    rw [← peels.isMethod_eq, Tree.isMethod, hf]
    rfl
  obtain ⟨orig, here⟩ : ∃ orig, plan.start.stmt? id = some orig := by
    rw [← Option.isSome_iff_exists, ← peels.isSome_stmt?, hf]
    rfl
  have level := plan.linked.level_child_method hosts.isBelow isChild hm
  refine ⟨⟨?_, ?_, ?_⟩, level.symm⟩
  · exact hosts.child here (by rwa [← plan.start.children_of_stmt here])
  · intro own busy
    simp [Frame.outermost] at busy
  · intro tgt above
    rw [plan.linked.ancestorsInMethod_child hosts.isBelow isChild, hm] at above
    simp at above

/-- The statements of a block that is the body of a method stand where no scope is open either. -/
theorem ready_bodyBlock (peels : plan.start.Peels tree) {stmts : List NodeId}
    (hf : tree.stmt? id = some (.method name ps rets body))
    (hosts : plan.start.Hosts plan.root id) (block : tree.stmt? body = some (.block stmts)) :
    ∀ stmt ∈ stmts, plan.Ready .outermost 0 stmt := by
  have hs : (plan.start.stmt? body).isSome := by
    rw [← peels.isSome_stmt?, block]
    rfl
  have isChild : body ∈ plan.start.children id :=
    peels.child_of_stmt hf (by simp [Stmt.children]) hs
  have hm : plan.start.isMethod id = true := by
    rw [← peels.isMethod_eq, Tree.isMethod, hf]
    rfl
  obtain ⟨seats, level⟩ := ready_body peels hf hosts hs
  have hp : plan.start.entersScope body = false := by
    obtain ⟨ren, he, -⟩ := peels.stmt?_eq body
    rw [block] at he
    obtain ⟨orig, here, eq⟩ := Option.map_eq_some_iff.mp he.symm
    have up := plan.linked.linked id body hosts.isBelow isChild
    cases orig with
    | block others => simp [Tree.entersScope, here, up, hm]
    | _ => simp [Stmt.renamed] at eq
  have i : plan.start.innerLevel body = 0 := by
    rw [Tree.innerLevel, ← level, hp]
    rfl
  intro stmt mem
  rw [← i]
  exact seats.ready (.refl _ body) (offers_of_plain (fun kind => by cases kind <;> rfl) _) peels block rfl
    (by simpa [Stmt.children] using mem)

theorem safe_emitBody (warn : Bool) (fits : e.Fits plan .outermost 0)
    (hf : e.work.tree.stmt? id = some (.method name ps rets body))
    (hosts : plan.start.Hosts plan.root id) :
    Safe (emitBody warn body) e fun _ e' => e'.Fits plan .outermost 0 := by
  have peels := fits.settled.peels
  have care : (emitterWithin warn e.work.tree.fuel).Careful plan := careful_emitterWithin warn _
  refine Safe.bind_ok rfl ?_
  split
  · rename_i stmts block
    refine Safe.bind (fits.safe_setReachable body true) fun _ e1 fits => ?_
    refine Safe.bind (safe_sequence care fits (ready_bodyBlock peels hf hosts block) warn) ?_
    intro _ e2 fits
    exact fits.safe_setStage body
  · exact care.stmt fits (ready_body peels hf hosts)

theorem safe_emitEnd (fits : e.Fits plan fr n) (id : NodeId) (name : String)
    (rets : List NodeId) : Safe (emitEnd id name rets) e fun _ e' => e'.Fits plan fr n := by
  refine Safe.bind_ok rfl ?_
  split
  · split
    · exact fits.safe_addPlain rfl rfl (by simp [Op.operands]) (by simp [Op.written?])
    · exact Safe.of_ok (a := ()) (reportAt_ok.mpr rfl) (fits.reported _)
  · exact Safe.pure fits

theorem Fits.keepsRules (fits : e.Fits plan .outermost 0) (name : String) :
    (e.code.toMethod name).KeepsRules :=
  fits.balanced.keepsRules fits.sound fits.registers name

/-- A method is emitted without an error of code, and its code fits into the frame around it. -/
theorem safe_emitMethod (warn : Bool) (fits : e.Fits plan .outermost 0)
    (stage : e.work.tree.stage id = .validated) : Safe (emitMethod warn id) e fun m e' =>
      ∃ name, m = e'.code.toMethod name ∧ e'.Fits plan .outermost 0 := by
  refine Safe.bind_ok rfl ?_
  split
  · rename_i name ps rets body hf
    have hs : (plan.start.stmt? id).isSome := by
      rw [← fits.settled.peels.isSome_stmt?, hf]
      rfl
    have hosts := fits.waiting id stage hs
    refine Safe.bind (safe_bindParams fits ps) ?_
    intro _ e1 bound
    obtain ⟨fits, eq⟩ := bound
    rw [← eq] at hf
    refine Safe.bind (safe_emitBody warn fits hf hosts) fun _ e2 fits => ?_
    refine Safe.bind (safe_emitEnd fits id name rets) fun _ e3 fits => ?_
    refine Safe.bind (fits.safe_setStage id) fun _ e4 fits => ?_
    have still : (e4.withCode e4.code).Fits plan .outermost 0 :=
      fits.handedOut rfl rfl rfl (Nat.le_refl _) (Nat.le_refl _)
    refine Safe.of_ok (tryCode_ok.mpr ⟨e4.code, ?_, rfl⟩) ⟨name, rfl, still⟩
    rw [Buffer.finish_ok (fits.keepsRules name)]
    rfl
  · exact Safe.throw (by simp)

theorem safe_method (warn : Bool) (carries : plan.Carries w)
    (stage : w.tree.stage id = .validated) :
    Safe (Emission.method warn id) w fun m work' => m.KeepsRules ∧ plan.Carries work' := by
  have safe := safe_emitMethod warn (fits_start carries) stage
  unfold Safe Emission.method at *
  cases ran : emitMethod warn id { work := w } with
  | ok m e' =>
    rw [ran] at safe
    obtain ⟨name, rfl, fits⟩ := safe
    exact ⟨fits.keepsRules name, fits.carries⟩
  | error defect e' =>
    rw [ran] at safe
    exact safe

end Emission

namespace Course

open CourseM

variable {plan : Plan} {course : Course}

theorem safe_emitMethods {ids : List NodeId} (carries : plan.Carries course.work) :
    Safe (emitMethods ids) course fun methods course' =>
      (∀ m ∈ methods, m.KeepsRules) ∧ plan.Carries course'.work := by
  induction ids generalizing course with
  | nil => exact Safe.pure ⟨by simp, carries⟩
  | cons id rest ih =>
    refine Safe.bind_ok rfl ?_
    dsimp only
    split
    · exact Safe.throw (by simp)
    · rename_i stage
      rw [not_not] at stage
      refine Safe.bind_ok rfl ?_
      have fst : Safe (CourseM.onWork (Emission.method course.options.warnUnreachable id)) course
          fun m course' => m.KeepsRules ∧ plan.Carries course'.work := by
        have safe := Emission.safe_method course.options.warnUnreachable carries stage
        unfold Safe CourseM.onWork at *
        cases ran : Emission.method course.options.warnUnreachable id course.work with
        | ok m w =>
          rw [ran] at safe
          exact safe
        | error defect w =>
          rw [ran] at safe
          exact safe
      refine Safe.bind fst ?_
      intro m course' emitted
      refine Safe.bind (ih emitted.2) ?_
      intro others last keep
      exact Safe.pure ⟨List.forall_mem_cons.mpr ⟨emitted.1, keep.1⟩, keep.2⟩

/-- Emission of a unit never runs into an error of code. -/
theorem safe_emit (carries : plan.Carries course.work) :
    Safe emit course fun methods _ => ∀ m ∈ methods, m.KeepsRules := by
  refine Safe.bind_ok rfl ?_
  refine Safe.bind_ok rfl ?_
  cases hf : methods course.work.tree course.root with
  | error defect =>
    refine Safe.throw fun error => ?_
    unfold methods at hf
    split at hf
    · simp at hf
    · simp at hf
    · cases hf
      simp
  | ok ids =>
    refine Safe.bind (safe_emitMethods carries) fun methods last ⟨keep, _⟩ => ?_
    refine Safe.bind_ok rfl ?_
    split
    · exact Safe.pure keep
    · exact Safe.bind_ok (a := ()) (onWork_ok.mpr ⟨_, WorkM.setStage_ok.mpr rfl, rfl⟩) (Safe.pure keep)

theorem carries_of_validate {course : Course} (fresh : course.work.tree.IsFresh course.root)
    (ranResolve : resolve cap course = .ok outcome resolved)
    (ranValidate : validate resolved = .ok (some root) validated) :
    Plan.Carries ⟨course.work.tree, course.root,
      fun id => (validated.work.tree.facts id).breakUsed, fresh.toIsLinked⟩ validated.work := by
  have kept := kept_of_validate fresh ranResolve ranValidate
  refine ⟨kept.toSettled, fun id stage hs => kept.staged id ?_ hs, fun _ => rfl⟩
  rw [stage]
  decide

/-- Emission of a unit that was built, resolved and validated never stops on an error of code: no
label is placed twice, and the code of no method is refused. The code that is emitted keeps its
rules. -/
theorem emission_keeps_rules {course resolved validated : Course} {cap : Option Nat}
    {outcome : Outcome} {root : NodeId} (fresh : course.work.tree.IsFresh course.root)
    (ranResolve : resolve cap course = .ok outcome resolved)
    (ranValidate : validate resolved = .ok (some root) validated) :
    (∀ error after, emit validated ≠ .error (.code error) after) ∧
      ∀ methods after, emit validated = .ok methods after →
        ∀ method ∈ methods, method.KeepsRules := by
  have safe := safe_emit (carries_of_validate fresh ranResolve ranValidate)
  unfold Safe at safe
  constructor
  · intro error after failed
    rw [failed] at safe
    exact safe error rfl
  · intro methods after done
    rw [done] at safe
    exact safe

end Course

/-- A unit whose only method leaves a loop from inside a block that declares a variable. -/
def leavingUnit : Tree where
  nodes := #[{ form := .type (.named ["Boolean"] []), parent := some ⟨13⟩ },
    { form := .expr (.name "b"), parent := some ⟨9⟩ },
    { form := .type (.named ["Boolean"] []), parent := some ⟨4⟩ },
    { form := .expr (.name "b"), parent := some ⟨4⟩ },
    { form := .stmt (.varDecl ⟨2⟩ "c" (some ⟨3⟩)), parent := some ⟨8⟩ },
    { form := .expr (.name "c"), parent := some ⟨7⟩ },
    { form := .stmt (.breakOut (some "out")), parent := some ⟨7⟩ },
    { form := .stmt (.ifElse [⟨5⟩] ⟨6⟩ none), parent := some ⟨8⟩ },
    { form := .stmt (.block [⟨4⟩, ⟨7⟩]), parent := some ⟨9⟩ },
    { form := .stmt (.whileLoop [⟨1⟩] ⟨8⟩ false), parent := some ⟨10⟩ },
    { form := .stmt (.labeled "out" ⟨9⟩), parent := some ⟨12⟩ },
    { form := .stmt (.returnValues []), parent := some ⟨12⟩ },
    { form := .stmt (.block [⟨10⟩, ⟨11⟩]), parent := some ⟨13⟩ },
    { form := .stmt (.method "m" [⟨"b", ⟨0⟩⟩] [] ⟨12⟩) }]
  root := some ⟨13⟩

theorem leavingUnit_isFresh : leavingUnit.IsFresh ⟨13⟩ :=
  Tree.isFresh_of_table (by decide) (by decide) (by decide)

theorem leavingUnit_emitted : (Session.compile {} {} leavingUnit).report.status = .emitted := by
  cbv

/-- The unit is resolved and validated, and the code that is emitted for it keeps its rules. -/
theorem leavingUnit_keeps_rules : ∃ outcome resolved root validated methods after,
    Course.resolve none (Session.courseOf {} {} leavingUnit ⟨13⟩) = .ok outcome resolved ∧
    Course.validate resolved = .ok (some root) validated ∧
    Course.emit validated = .ok methods after ∧ ∀ method ∈ methods, method.KeepsRules := by
  obtain ⟨start, after, isRoot, ran, -, -⟩ := Session.compile_emitted leavingUnit_emitted
  obtain rfl : ⟨13⟩ = start := Option.some.inj isRoot
  obtain ⟨outcome, resolved, root, validated, ranResolve, ranValidate, ranEmit, -⟩ :=
    Course.run_ok ran
  refine ⟨outcome, resolved, root, validated, _, after, ranResolve, ranValidate, ranEmit, ?_⟩
  exact (Course.emission_keeps_rules leavingUnit_isFresh ranResolve ranValidate).2 _ after ranEmit

end TreeCompiler
