import TreeCompiler.Proofs.ControlFlow
import TreeCompiler.Proofs.ValidatedUnits

/-!
# Outcomes of units

A unit is emitted if nothing serious is reported about it, and then with a method for each of its
members. The one way to fail without a report is to use a declaring condition of a `for` loop in the
first part of the loop.
-/

namespace TreeCompiler

open Step

/-! ### Steps that stop -/

theorem sending_logs : SendingInvariant (fun _ => True) Work.Logs where
  child _ _ _ := trivial
  sent _ _ logs _ := logs
  reach _ _ _ logs := logs
  report _ diag logs := logs.reported diag
  scope _ _ logs := logs

theorem Validation.logs_validate (id : NodeId) : Always Work.Logs (validate id) :=
  (validationInvariant_logs.checking.guided_validate trivial).upheld.always

namespace Course

/-- Diagnostics of a unit are kept. -/
def Logs (c : Course) : Prop := c.work.Logs

theorem logs_validate : Always Course.Logs validate := always_validate Validation.logs_validate

/-- A unit whose diagnostics are kept still has them wherever its course ends. -/
theorem logs_run : Always Course.Logs run :=
  always_run Validation.logs_validate sending_logs
    (always_work (resolutionInvariant_logs.always_resolve none))

end Course

/-! ### Members -/

variable {ids : List NodeId} {methods : List Method} {root : NodeId}

/-- The name of a method. -/
def Tree.methodName? (tree : Tree) (id : NodeId) : Option String :=
  match tree.stmt? id with
  | some (.method name ..) => some name
  | _ => none

/-- The members of a unit: those of its container, or the unit itself. -/
def Tree.members (tree : Tree) (root : NodeId) : List NodeId :=
  match tree.stmt? root with
  | some (.container _ members) => members
  | _ => [root]

namespace Tree.Peels

variable {s tree : Tree} {id old new : NodeId}

theorem methodName?_eq (peels : s.Peels tree) (id : NodeId) :
    tree.methodName? id = s.methodName? id := by
  obtain ⟨ren, he, -⟩ := peels.stmt?_eq id
  unfold methodName?
  rw [he]
  cases s.stmt? id with
  | none => rfl
  | some stmt => cases stmt <;> rfl

/-- A statement stands for itself only. -/
theorem eq_of_strips (peels : s.Peels tree) (hst : s.Strips old new)
    (hs : (tree.stmt? new).isSome) : new = old := by
  rw [peels.isSome_stmt?] at hs
  apply hst.eq_of_stmt
  by_contra hp
  rw [hst.stmt?_eq_none (by simpa using hp)] at hs
  simp at hs

theorem isSome_stmt?_of_methodName? (hn : (tree.methodName? id).isSome) :
    (tree.stmt? id).isSome := by
  unfold methodName? at hn
  split at hn
  · simp [*]
  · simp at hn

theorem members_eq (peels : s.Peels tree) (hs : s.Strips old new)
    (hf : Course.methods tree new = .ok ids) (hn : ∀ id ∈ ids, (tree.methodName? id).isSome) :
    ids = s.members old := by
  obtain ⟨ren, he, moved⟩ := peels.stmt?_eq new
  unfold Course.methods at hf
  split at hf
  · rename_i name members isContainer
    cases hf
    obtain rfl := peels.eq_of_strips hs (by simp [isContainer])
    rw [isContainer] at he
    obtain ⟨stmt, here, eq⟩ := Option.map_eq_some_iff.mp he.symm
    cases stmt with
    | container orig others =>
      cases eq
      have fixed : others.map ren = others := by
        refine (List.map_congr_left fun mem hi => ?_).trans (List.map_id others)
        have isChild : mem ∈ s.children new := by
          rw [s.children_of_stmt here]
          exact hi
        exact peels.eq_of_strips (moved mem isChild)
          (isSome_stmt?_of_methodName? (hn _ (List.mem_map_of_mem hi)))
      simp [members, here, fixed]
    | _ => simp [Stmt.renamed] at eq
  · rename_i name ps rets body hm
    cases hf
    obtain rfl := peels.eq_of_strips hs (by simp [hm])
    rw [hm] at he
    obtain ⟨stmt, here, eq⟩ := Option.map_eq_some_iff.mp he.symm
    cases stmt with
    | method _ _ _ _ => simp [members, here]
    | _ => simp [Stmt.renamed] at eq
  · simp at hf

end Tree.Peels

/-- Emission leaves every statement as it is. -/
theorem emissionInvariant_stmts (s : Tree) :
    EmissionInvariant fun e => ∀ id, e.work.tree.stmt? id = s.stmt? id where
  facts e id f eq _ x := by
    rw [← eq x]
    exact e.work.tree.stmt?_modify id x f
  report _ _ eq := eq
  scope e own eq _ x := by
    rw [← eq x]
    simp only [Tree.stmt?, Emission.withScope]
    exact congrArg (·.bind Form.stmt?) (Work.form?_withScope own x)
  add _ _ eq := eq
  place _ _ eq _ := eq
  placeJoin _ _ eq _ := eq
  register _ eq := eq
  helper _ eq := eq
  bound _ _ eq := eq
  still _ eq := eq

theorem Emission.methodName?_eq {warn : Bool} {id : NodeId} {m : Method} {w after : Work}
    (done : Emission.method warn id w = .ok m after) : w.tree.methodName? id = some m.name ∧
      ∀ x, after.tree.stmt? x = w.tree.stmt? x := by
  obtain ⟨e, emitted, rfl⟩ := method_ok.mp done
  refine ⟨?_, (emissionInvariant_stmts w.tree).keeps_emitMethod warn id _ m e (fun _ => by rfl) emitted⟩
  obtain ⟨name, ps, rets, body, -, -, -, hf, -, -, -, -, finished⟩ := emitMethod_ok emitted
  unfold Tree.methodName?
  rw [hf]
  unfold Buffer.finish at finished
  cases hc : (e.code.toMethod name).check with
  | error error => simp [hc, bind, Except.bind] at finished
  | ok u =>
    obtain rfl : e.code.toMethod name = m := by
      simpa [hc, bind, Except.bind, pure, Except.pure] using finished
    rfl

theorem Course.methodNames_eq {c after : Course} (done : emitMethods ids c = .ok methods after) :
    methods.map (fun m => some m.name) = ids.map c.work.tree.methodName? := by
  induction ids generalizing c methods with
  | nil =>
    cases done
    rfl
  | cons id rest ih =>
    obtain ⟨m, others, w, rfl, -, ran, done⟩ := emitMethods_cons_ok done
    obtain ⟨hn, eq⟩ := Emission.methodName?_eq ran
    have hf := ih done
    have names : w.tree.methodName? = c.work.tree.methodName? := by
      funext x
      simp only [Tree.methodName?, eq]
    rw [List.map_cons, List.map_cons, hn, hf, names]

/-! ### Failures -/

theorem Sink.any_isSerious (sink : Sink) :
    sink.entries.any (·.severity.isSerious) = sink.hasSerious := by
  cases sink with
  | keeping log => exact log.hasSerious_eq_any.symm
  | silent => rfl

namespace Course

variable {c res validated after : Course} {cap : Option Nat} {out : Outcome}

/-- What the names of a unit may denote outside of it. -/
def Denoted (c : Course) (comp : Component) : Prop :=
  ∃ sym ∈ c.work.symbols.symbols, sym.component = comp

/-- What is asked of a unit that starts its course. -/
structure Starts (c : Course) : Prop where
  built : c.work.tree.IsBuilt c.root
  fresh : c.outcome = none
  logs : c.work.Logs
  known : ∀ ty, c.Denoted (.type ty) → ∃ term, c.work.pool.Means ty term

theorem Starts.ready (starts : c.Starts) (ran : resolve cap c = .ok out res)
    (quiet : ¬res.work.Loud) :
    ∃ left, res.work.Ready c.work.tree c.root c.Denoted left := by
  refine resolve_ready starts.built.toIsLinked starts.built.present starts.fresh rfl ?_ ran quiet
  refine ⟨.refl _, fun sym mem => ⟨sym, mem, rfl⟩, starts.known, fun id => ?_, fun id stage => ?_⟩
  · simp [Tree.stage, starts.built.blank, Stage.isUpTo, Stage.rank]
  · simp [Tree.stage, starts.built.blank] at stage

theorem Starts.logs_resolved (starts : c.Starts) (ran : resolve cap c = .ok out res) :
    res.work.Logs ∧ res.root = c.root :=
  (resolutionInvariant_logs.always_resolve cap).keeps c out res ⟨starts.logs, rfl⟩ ran

theorem work_of_validate {root? : Option NodeId} (ran : validate c = .ok root? after) :
    Validation.validate c.root c.work = .ok root? after.work := by
  replace ran := rest_ok ran rfl
  obtain ⟨ans, snd, seen, ran⟩ := bind_ok.mp ran
  obtain ⟨w, worked, rfl⟩ := CourseM.onWork_ok.mp seen
  cases ans with
  | none =>
    cases ran
    exact worked
  | some root =>
    obtain ⟨u, third, changed, ran⟩ := bind_ok.mp ran
    cases changed
    cases ran
    exact worked

/-- A unit whose validation ends without a report is valid if it uses no declaring condition
early. -/
theorem Starts.validated_iff (starts : c.Starts)
    (ranResolve : resolve cap c = .ok out res) {root? : Option NodeId}
    (ranValidate : validate res = .ok root? validated) (quiet : ¬validated.work.Loud) :
    root?.isSome ↔ ¬c.work.tree.UsesEarly c.root := by
  have ran := work_of_validate ranValidate
  rw [(starts.logs_resolved ranResolve).2] at ran
  have quietResolved : ¬res.work.Loud :=
    (validationInvariant_loud.keeps_validate trivial).quiet ran quiet
  obtain ⟨left, ready⟩ := starts.ready ranResolve quietResolved
  have fair : Outset.Fair ⟨c.work.tree, c.root, left, c.Denoted⟩ :=
    Outset.fair_of_built starts.built ready
  cases root? with
  | none => simpa using Outset.usesEarly_of_validate fair ready ran quiet
  | some root => simpa using Outset.not_usesEarly_of_validate fair ready ran quiet

/-- A course that ends without methods ends with a report, or a declaring condition is used
early. -/
theorem Starts.usesEarly_of_run (starts : c.Starts) (ran : run c = .ok none after)
    (quiet : ¬after.work.Loud) : c.work.tree.UsesEarly c.root := by
  obtain ⟨out, res, ranResolve, ran⟩ := bind_ok.mp ran
  replace ran := rest_ok ran rfl
  split at ran
  · rename_i aborted
    cases ran
    rw [Work.not_abortDesired quiet] at aborted
    simp at aborted
  · obtain ⟨root?, validated, ranValidate, ran⟩ := bind_ok.mp ran
    replace ran := rest_ok ran rfl
    split at ran
    · rename_i stops
      obtain ⟨-, rfl⟩ := pure_ok.mp ran
      by_contra ordered
      have valid := (starts.validated_iff ranResolve ranValidate quiet).mpr ordered
      have serious : validated.work.sink.hasSerious = true := by
        simpa [Option.isSome_iff_ne_none.mp valid] using stops
      exact quiet (.inr serious)
    · obtain ⟨methods, emitted, ranEmit, ran⟩ := bind_ok.mp ran
      replace ran := rest_ok ran rfl
      obtain ⟨given, rfl⟩ := pure_ok.mp ran
      split at given
      · rename_i serious
        exact absurd (.inr serious) quiet
      · simp at given

/-- The root that a valid unit goes on with stands for the one it was built with. -/
theorem strips_of_validate (fresh : c.work.tree.IsFresh c.root)
    (ranResolve : resolve cap c = .ok out res)
    (ranValidate : validate res = .ok (some root) validated) : c.work.tree.Strips c.root root := by
  obtain ⟨kept, ran⟩ := kept_of_resolve fresh ranResolve ranValidate
  have hs := ((validationInvariant_kept fresh.toIsLinked).checking.guided_validate
    ⟨.root, fun _ => .root⟩).yields res.work _ validated.work kept ran
  exact (hs.2 root rfl).1

theorem members_of_validate (fresh : c.work.tree.IsFresh c.root)
    (ranResolve : resolve cap c = .ok out res)
    (ranValidate : validate res = .ok (some root) validated)
    (hf : Course.methods validated.work.tree validated.root = .ok ids)
    (ranMethods : emitMethods ids validated = .ok methods after) :
    ids = c.work.tree.members c.root := by
  have peels := (kept_of_validate fresh ranResolve ranValidate).peels
  have hn : ∀ id ∈ ids, (validated.work.tree.methodName? id).isSome := by
    intro id mem
    have hi : validated.work.tree.methodName? id ∈ methods.map (fun m => some m.name) := by
      rw [methodNames_eq ranMethods]
      exact List.mem_map_of_mem mem
    obtain ⟨m, -, eq⟩ := List.mem_map.mp hi
    simp [← eq]
  have hs := strips_of_validate fresh ranResolve ranValidate
  have isRoot : validated.root = root := by
    obtain ⟨w, -, rfl⟩ := validate_ok ranValidate
    rfl
  rw [isRoot] at hf
  exact peels.members_eq hs hf hn

/-- The methods of an emitted unit have the names of its members, and nothing serious was
reported. -/
theorem Starts.names_of_run (starts : c.Starts) (ran : run c = .ok (some methods) after) :
    ¬c.work.tree.UsesEarly c.root ∧ methods.map (fun m => some m.name) =
        (c.work.tree.members c.root).map c.work.tree.methodName? := by
  obtain ⟨out, res, root, validated, ranResolve, ranValidate, ranEmit, quiet⟩ := run_ok ran
  obtain ⟨ids, last, hf, ranMethods, ended⟩ := emit_ok ranEmit
  have logs : validated.work.Logs :=
    logs_validate.keeps res _ validated (starts.logs_resolved ranResolve).1 ranValidate
  have quietLast : last.work.sink.hasSerious = false := by
    rcases ended with rfl | changed
    · exact quiet
    · rwa [changed] at quiet
  have quietValidated : ¬validated.work.Loud := by
    rw [logs.loud_iff, ((emitMethods_return logs ranMethods).2 quietLast).1]
    simp
  have members := members_of_validate starts.built.toIsFresh ranResolve ranValidate hf ranMethods
  have peels := (kept_of_validate starts.built.toIsFresh ranResolve ranValidate).peels
  refine ⟨(starts.validated_iff ranResolve ranValidate quietValidated).mp rfl, ?_⟩
  rw [methodNames_eq ranMethods, ← members]
  exact List.map_congr_left fun id _ => peels.methodName?_eq id

end Course

namespace Session

variable (session : Session) (symbols : SymbolTable) (tree : Tree)

theorem starts_courseOf (built : tree.IsBuilt root)
    (hk : ∀ sym ∈ symbols.symbols, ∀ ty, sym.component = .type ty →
      session.pool.isResolved ty = .ok true) : (session.courseOf symbols tree root).Starts where
  built := built
  fresh := rfl
  logs := ⟨_, rfl⟩
  known ty denoted := by
    obtain ⟨sym, mem, ht⟩ := denoted
    exact Pool.means_of_isResolved (hk sym mem ty ht)

variable {session} in
theorem serious_of_abandon {w : Work} (logs : w.Logs) (defect : Defect) (out : Option Outcome) :
    ¬∀ diag ∈ (session.abandon w defect out).report.diagnostics,
      diag.severity.isSerious = false := by
  obtain ⟨log, keeping⟩ := logs
  intro quiet
  have fatal := quiet defect.diagnostic (by
    simp [abandon, close, keeping, Sink.report, Sink.entries, Log.add])
  simp [Defect.diagnostic, Severity.isSerious, Severity.rank] at fatal

/-- The report of a unit tells whether it was emitted and, if it was not, why. It is emitted if
nothing serious is reported, unless it uses a declaring condition of a `for` loop in the first part
of the loop. Then it has a method for each of its members, in order and under the member's name;
otherwise it has none. -/
theorem report_explains_status (built : ∀ root, tree.root = some root → tree.IsBuilt root)
    (known : ∀ symbol ∈ symbols.symbols, ∀ type, symbol.component = .type type →
      session.pool.isResolved type = .ok true) :
    let report := (session.compile symbols tree).report
    (report.status = .emitted ↔ (∀ diagnostic ∈ report.diagnostics, diagnostic.severity.isSerious = false) ∧
        ∀ root, tree.root = some root → ¬tree.UsesEarly root) ∧
    (report.status = .emitted → ∃ root, tree.root = some root ∧
      report.methods.map (fun method => some method.name) = (tree.members root).map tree.methodName?) ∧
    (report.status ≠ .emitted → report.methods = []) := by
  unfold compile
  cases rooted : tree.root with
  | none =>
    refine ⟨⟨by simp [abandon, close], fun quiet => ?_⟩, by simp [abandon, close], fun _ => rfl⟩
    exact absurd quiet.1 (serious_of_abandon ⟨_, rfl⟩ _ _)
  | some root =>
    have starts := starts_courseOf session symbols tree (built root rooted) known
    have logs := Course.logs_run (session.courseOf symbols tree root) starts.logs
    cases ran : Course.run (session.courseOf symbols tree root) with
    | error defect after =>
      rw [ran] at logs
      unfold courseOf at ran
      simp only [ran]
      refine ⟨⟨by simp [abandon, close], fun quiet => ?_⟩, by simp [abandon, close], fun _ => rfl⟩
      exact absurd quiet.1 (serious_of_abandon logs defect after.outcome)
    | ok methods after =>
      rw [ran] at logs
      have kept : after.work.Logs := logs
      have serious : (∀ diagnostic ∈ after.work.sink.entries, diagnostic.severity.isSerious = false) ↔
          ¬after.work.Loud := by
        rw [kept.loud_iff, ← after.work.sink.any_isSerious]
        simp
      cases methods with
      | none =>
        have early := starts.usesEarly_of_run ran
        unfold courseOf at ran
        simp only [ran, close]
        refine ⟨⟨?_, ?_⟩, ?_, fun _ => by trivial⟩
        · split <;> simp
        · rintro ⟨quiet, ordered⟩
          exact absurd (early (serious.mp quiet)) (ordered root rfl)
        · split <;> simp
      | some methods =>
        obtain ⟨ordered, names⟩ := starts.names_of_run ran
        obtain ⟨-, -, -, -, -, -, -, quiet⟩ := Course.run_ok ran
        have quiet : ¬after.work.Loud := by
          rw [kept.loud_iff, quiet]
          simp
        unfold courseOf at ran
        simp only [ran, close]
        refine ⟨⟨fun _ => ⟨serious.mpr quiet, ?_⟩, fun _ => by trivial⟩, fun _ => ⟨root, rfl, names⟩, by simp⟩
        intro other same
        cases same
        exact ordered

end Session

/-- A session that knows one class. -/
def queueSession : Session where
  pool := Pool.empty.run [.intern (.type (.named "Queue"))]

/-- The table that names the class, which is held back for one lookup. -/
def queueTable : SymbolTable where
  symbols := [{ name := "Queue", component := .type ⟨0⟩, heldBack := 1 }]

/-- A unit whose method goes on as long as what a `for` loop declares in its condition is not
null. -/
def drainingUnit : Tree where
  nodes := #[{ form := .type (.named ["Queue"] []), parent := some ⟨1⟩ },
    { form := .type (.nullable ⟨0⟩), parent := some ⟨10⟩ },
    { form := .type (.named ["Queue"] []), parent := some ⟨4⟩ },
    { form := .expr (.name "m"), parent := some ⟨4⟩ },
    { form := .stmt (.condDecl ⟨2⟩ "s" ⟨3⟩), parent := some ⟨8⟩ },
    { form := .expr (.name "s"), parent := some ⟨6⟩ },
    { form := .stmt (.evaluate ⟨5⟩), parent := some ⟨7⟩ },
    { form := .stmt (.block [⟨6⟩]), parent := some ⟨8⟩ },
    { form := .stmt (.forLoop [] [⟨4⟩] [] ⟨7⟩), parent := some ⟨9⟩ },
    { form := .stmt (.block [⟨8⟩]), parent := some ⟨10⟩ },
    { form := .stmt (.method "run" [⟨"m", ⟨1⟩⟩] [] ⟨9⟩) }]
  root := some ⟨10⟩

theorem drainingUnit_isBuilt : drainingUnit.IsBuilt ⟨10⟩ :=
  Tree.isBuilt_of_table (Tree.isFresh_of_table (by decide) (by decide) (by decide)) rfl (by decide)

/-- The unit is emitted with its one method, so nothing serious was reported about it. -/
theorem drainingUnit_explained :
      (queueSession.compile queueTable drainingUnit).report.status = .emitted ∧
      (∀ diagnostic ∈ (queueSession.compile queueTable drainingUnit).report.diagnostics,
        diagnostic.severity.isSerious = false) ∧
      ¬drainingUnit.UsesEarly ⟨10⟩ ∧
      (queueSession.compile queueTable drainingUnit).report.methods.map
        (fun method => some method.name) = [some "run"] := by
  have emitted : (queueSession.compile queueTable drainingUnit).report.status = .emitted := by cbv
  obtain ⟨explained, named, -⟩ := Session.report_explains_status queueSession queueTable drainingUnit
    (fun root rooted => Option.some.inj rooted ▸ drainingUnit_isBuilt) (by
      intro symbol member type isType
      obtain rfl := List.mem_singleton.mp member
      obtain rfl := Component.type.inj isType
      cbv)
  obtain ⟨quiet, ordered⟩ := explained.mp emitted
  obtain ⟨root, rooted, names⟩ := named emitted
  cases rooted
  exact ⟨emitted, quiet, ordered ⟨10⟩ rfl, names⟩

/-- A unit that uses what a `for` loop declares in its condition in the first part of the loop. -/
def hastyUnit : Tree where
  nodes := #[{ form := .type (.named ["String"] []), parent := some ⟨1⟩ },
    { form := .type (.nullable ⟨0⟩), parent := some ⟨10⟩ },
    { form := .type (.named ["String"] []), parent := some ⟨4⟩ },
    { form := .expr (.name "m"), parent := some ⟨4⟩ },
    { form := .stmt (.condDecl ⟨2⟩ "s" ⟨3⟩), parent := some ⟨8⟩ },
    { form := .expr (.name "s"), parent := some ⟨6⟩ },
    { form := .stmt (.evaluate ⟨5⟩), parent := some ⟨8⟩ },
    { form := .stmt (.block []), parent := some ⟨8⟩ },
    { form := .stmt (.forLoop [⟨6⟩] [⟨4⟩] [] ⟨7⟩), parent := some ⟨9⟩ },
    { form := .stmt (.block [⟨8⟩]), parent := some ⟨10⟩ },
    { form := .stmt (.method "run" [⟨"m", ⟨1⟩⟩] [] ⟨9⟩) }]
  root := some ⟨10⟩

theorem hastyUnit_isBuilt : hastyUnit.IsBuilt ⟨10⟩ :=
  Tree.isBuilt_of_table (Tree.isFresh_of_table (by decide) (by decide) (by decide)) rfl (by decide)

/-- The unit fails without any diagnostic. -/
theorem hastyUnit_fails_silently :
    hastyUnit.IsBuilt ⟨10⟩ ∧ (Session.compile {} {} hastyUnit).report.status = .failed ∧
      (Session.compile {} {} hastyUnit).report.diagnostics = [] :=
  ⟨hastyUnit_isBuilt, by cbv, by cbv⟩

end TreeCompiler
