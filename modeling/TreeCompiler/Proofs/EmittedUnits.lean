import TreeCompiler.Proofs.EmittedRules
import TreeCompiler.Proofs.EmitterProgress
import TreeCompiler.Proofs.KnownValues
import TreeCompiler.Proofs.UnitOutcomes

/-!
# Units are emitted

A well-formed unit that is valid without a serious report is emitted without an internal error,
unless the body of a loop that tests last refers to what a condition of the loop declares while
another one is known never to hold.
-/

namespace TreeCompiler

open Step

namespace Outset

open Emission EmitM

variable {o : Outset} {work : Work} {effect : Effect} {e e' : Emission} {id body : NodeId}
  {name : String} {qs : List Param} {rets : List NodeId}

/-! ### Methods -/

theorem Tracks.bindParams (trk : o.Tracks work e) (qs : List Param) :
    Proceeds (o.Moves work effect) (Emission.bindParams qs) e fun _ e' =>
      ∀ param ∈ qs, (e'.locals.lookup param.type).isSome := by
  induction qs generalizing e with
  | nil => exact Proceeds.pure (.refl trk _) (by simp)
  | cons param qs ih =>
    refine Proceeds.bind (trk.bindRegister param.type) fun _ e₁ hm bound => ?_
    refine (ih hm.tracks).answering fun _ e₂ hm all x mem => ?_
    rcases List.mem_cons.mp mem with rfl | mem
    · exact hm.locals _ bound.1
    · exact all x mem

theorem Tracks.emitEnd (trk : o.Tracks work e) (id : NodeId) (name : String) (rets : List NodeId) :
    Proceeds (o.Moves work (.stmt o.tree id)) (Emission.emitEnd id name rets) e
    fun _ _ => True := by
  refine Proceeds.bind_read rfl ?_
  split
  · split
    · exact (trk.add (by simp [Op.target?]) False.elim).answering fun _ _ _ _ => trivial
    · exact Proceeds.of_ok (a := ()) (reportAt_ok.mpr rfl) (.ofReport trk _) trivial
  · exact Proceeds.pure (.refl trk _) trivial

namespace Emittable

variable (emittable : o.Emittable work)

include emittable

theorem covers_body (hb : o.tree.Below o.root id)
    (hf : o.tree.stmt? id = some (.method name qs rets body))
    (bound : ∀ param ∈ qs, (e.locals.lookup param.type).isSome) : o.Covers e body := by
  intro use local_ decl _ _ _ hv
  have mem : body ∈ o.tree.children id := by
    rw [o.tree.children_of_stmt hf]
    simp [Stmt.children]
  rw [emittable.linked.findLocal_child hb mem, hf] at hv
  obtain ⟨param, here, rfl⟩ := Option.map_eq_some_iff.mp hv
  exact bound param (List.mem_reverse.mp (List.mem_of_find?_eq_some here))

theorem proceeds_emitBody (warn : Bool) (due : o.Due work body e) (hr : e.code.reachable = true) :
    Proceeds (o.Moves work (.stmt o.tree body)) (emitBody warn body) e fun _ _ => True := by
  have small : body.index < e.work.tree.fuel := by
    have hi := emittable.linked.index_lt_size due.below emittable.fair.present
    rw [Tree.fuel, due.tracks.settled.peels.size]
    omega
  have emits := emittable.emits warn e.work.tree.fuel
  obtain ⟨stmt, hf, -⟩ := due.isStmt
  obtain ⟨ren, renamed, seats⟩ := emittable.stmt_seats due.below hf
  have whole : Proceeds (o.Moves work (.stmt o.tree body)) _ e fun _ _ => True :=
    (emits.stmt small due).mono (fun _ hm => hm.within (Effect.within_stmt fun _ hb => hb))
      fun _ _ _ _ => trivial
  refine Proceeds.bind_read rfl ?_
  rw [due.tracks.stmt?, renamed]
  cases stmt with
  | block stmts =>
    have marks : Proceeds (o.Moves work (.exprs o.tree [])) (EmitM.setReachable body true) e fun _ e' =>
        e'.code = e.code := due.tracks.setReachable body true
    refine Proceeds.bind_within marks (fun _ hm => hm.within
      (Effect.within_stmt fun x touched => absurd touched (touches_nothing x)))
      fun _ e₁ hm eq => ?_
    have he := due.entered hr hm eq hf renamed seats
    have ho : o.Open work body none stmts e₁ :=
      he.isOpen (fun _ mem => mem) (he.distinct emittable)
    refine Proceeds.bind (emits.blockParts emittable small.le warn he ho) fun _ e₂ _ ho => ?_
    have hi : (Effect.stmt o.tree body).region body := .root
    exact (ho.tracks.setStage hi).answering fun _ _ _ _ => trivial
  | _ => exact whole

theorem proceeds_emitMethod (warn : Bool) (hb : o.tree.Below o.root id)
    (hf : o.tree.stmt? id = some (.method name qs rets body)) (trk : o.Tracks work e)
    (unsent : o.Unsent id e) (blank : e.code = {}) :
    Proceeds (o.Moves work (.stmt o.tree id)) (emitMethod warn id) e fun _ _ => True := by
  obtain ⟨ren, renamed, seats⟩ := emittable.stmt_seats hb hf
  have seatBody := seats .statement body (by simp [Stmt.slots])
  obtain ⟨eq, isBody⟩ := seatBody.stmt (by decide)
  have isChild := seatBody.member
  have sameParams : (qs.map fun param => { param with type := ren param.type }) = qs := by
    refine (List.map_congr_left fun param mem => ?_).trans (List.map_id' qs)
    have ht : (Slot.type, param.type) ∈ (Stmt.method name qs rets body).slots := by
      simp only [Stmt.slots, List.mem_append, List.mem_map]
      exact .inl ⟨param.type, .inl ⟨param, mem, rfl⟩, rfl⟩
    rw [(seats .type param.type ht).type.1]
  refine Proceeds.bind_read rfl ?_
  rw [trk.stmt?, renamed]
  simp only [Stmt.renamed, eq, sameParams]
  have binds : Proceeds (o.Moves work (.exprs o.tree [])) (Emission.bindParams qs) e _ :=
    trk.bindParams qs
  refine Proceeds.bind_within binds (fun _ hm => hm.within
    (Effect.within_stmt fun x touched => absurd touched (touches_nothing x)))
    fun _ e₁ hm bound => ?_
  have aimed : Aimed (o.tree.ancestors body) e := by
    intro l _ referenced
    simp [blank, Buffer.isReferenced] at referenced
  have hr : e₁.code.reachable = true := hm.goes trivial (by simp [blank])
  have due : o.Due work body e₁ :=
    { below := hb.child isChild
      isStmt := isBody
      tracks := hm.tracks
      covers := fun _ => emittable.covers_body hb hf bound
      unsent := hm.unsent (fun x under => unsent x ((Tree.Below.root.child isChild).trans under))
        fun x _ => touches_nothing x
      aimed := hm.aimed aimed fun _ _ aims => aims.elim }
  refine Proceeds.bind_within (emittable.proceeds_emitBody warn due hr) (fun _ hm => hm.within
    (Effect.within_stmt fun _ under => (Tree.Below.root.child isChild).trans under)) fun _ e₂ hm _ => ?_
  refine Proceeds.bind (hm.tracks.emitEnd id name _) fun _ e₃ hm _ => ?_
  have hi : (Effect.stmt o.tree id).region id := .root
  refine Proceeds.bind (hm.tracks.setStage hi) fun _ e₄ hm _ => ?_
  unfold Proceeds
  cases finished : e₄.code.finish name with
  | ok m =>
    rw [tryCode_ok.mpr ⟨e₄.code, by rw [finished], rfl⟩]
    exact ⟨.ofCode hm.tracks (fun _ _ referenced => .inl referenced) fun _ hr => hr, trivial⟩
  | error error =>
    simp [EmitM.tryCode, EmitM.onCode, finished, bind, EStateM.bind, modifyGet, MonadStateOf.modifyGet,
      EStateM.modifyGet, throw, throwThe, MonadExceptOf.throw, EStateM.throw]

end Emittable

/-! ### Units -/

/-- The plan of emitting a valid unit. -/
def Emittable.plan (emittable : o.Emittable work) : Plan :=
  ⟨o.tree, o.root, fun id => (work.tree.facts id).breakUsed, emittable.linked⟩

/-- Some methods of a unit are still to be emitted. -/
structure Awaits (emittable : o.Emittable work) (ids : List NodeId) (now : Work) : Prop where
  tracks : o.Tracks work { work := now }
  carries : emittable.plan.Carries now
  unsent : ∀ id ∈ ids, o.Unsent id { work := now }

variable (o) in
/-- Methods that have no node in common. -/
structure Apart (ids : List NodeId) : Prop where
  below : ∀ id ∈ ids, o.tree.Below o.root id
  methods : ∀ id ∈ ids, ∃ stmt, o.tree.stmt? id = some stmt ∧ stmt.isMethod
  distinct : ids.Pairwise fun first snd =>
    ∀ node, o.tree.Below snd node → ¬o.tree.Below first node

variable {emittable : o.Emittable work} {ids : List NodeId} {now : Work}

theorem Awaits.exists_method (awaits : Awaits emittable (id :: ids) now)
    (apart : o.Apart (id :: ids))
    (warn : Bool) : ∃ m t, Emission.method warn id now = .ok m t ∧ Awaits emittable ids t := by
  have hb := apart.below id List.mem_cons_self
  obtain ⟨stmt, hf, hme⟩ := apart.methods id List.mem_cons_self
  have unsent := awaits.unsent id List.mem_cons_self
  have safe := safe_emitMethod warn (fits_start awaits.carries) (unsent id .root)
  cases stmt with
  | method name qs rets body =>
    obtain ⟨m, e', ran, hm, -, -, -, fits⟩ :=
      (emittable.proceeds_emitMethod warn hb hf awaits.tracks unsent rfl).exists_ok safe
    refine ⟨m, e'.work, method_ok.mpr ⟨e', ran, rfl⟩, ?_, fits.carries, fun x mem => ?_⟩
    · exact ⟨hm.tracks.settled, hm.tracks.form, hm.tracks.lasting, hm.tracks.pool⟩
    · exact hm.unsent (awaits.unsent x (List.mem_cons_of_mem id mem))
        ((List.pairwise_cons.mp apart.distinct).1 x mem)
  | _ => simp [Stmt.isMethod] at hme

open Course CourseM in
theorem Awaits.exists_methods {course : Course} (awaits : Awaits emittable ids course.work)
    (apart : o.Apart ids) : ∃ methods t, emitMethods ids course = .ok methods t := by
  induction ids generalizing course with
  | nil => exact ⟨[], course, rfl⟩
  | cons id ids ih =>
    obtain ⟨m, work', ran, awaits'⟩ := awaits.exists_method apart course.options.warnUnreachable
    have rest : o.Apart ids :=
      ⟨fun x mem => apart.below x (List.mem_cons_of_mem id mem),
        fun x mem => apart.methods x (List.mem_cons_of_mem id mem),
        (List.pairwise_cons.mp apart.distinct).2⟩
    have hf : ∃ methods t, emitMethods ids { course with work := work' } = .ok methods t :=
      ih awaits' rest
    obtain ⟨methods, t, hf⟩ := hf
    refine ⟨m :: methods, t, ?_⟩
    have valid : course.work.tree.stage id = .validated := awaits.unsent id List.mem_cons_self id .root
    refine bind_ok.mpr ⟨_, course, tree_ok.mpr ⟨rfl, rfl⟩, ?_⟩
    simp only [valid]
    refine bind_ok.mpr ⟨_, course, get_ok.mpr ⟨rfl, rfl⟩, ?_⟩
    refine bind_ok.mpr ⟨m, _, onWork_ok.mpr ⟨work', ran, rfl⟩, ?_⟩
    exact bind_ok.mpr ⟨methods, t, hf, rfl⟩

/-- The methods of a well-formed unit. -/
theorem Emittable.exists_members (emittable : o.Emittable work) :
    ∃ ids, Course.methods work.tree o.root = .ok ids ∧ o.Apart ids := by
  obtain ⟨stmt, hf, isTop⟩ := emittable.formed.top
  obtain ⟨ren, renamed, seats⟩ := emittable.stmt_seats .root hf
  cases stmt with
  | container name members =>
    have ps : ∀ mem ∈ members, ren mem = mem ∧ o.Seat o.root .member mem mem := by
      intro mem hi
      have seat := seats .member mem (List.mem_map_of_mem hi)
      obtain ⟨eq, -⟩ := seat.stmt (by decide)
      rw [eq] at seat
      exact ⟨eq, seat⟩
    have eq : members.map ren = members := by
      rw [List.map_congr_left fun mem hi => (ps mem hi).1, List.map_id']
    refine ⟨members, by simp [Course.methods, renamed, Stmt.renamed, eq], ?_, ?_, ?_⟩
    · exact fun id mem => Tree.Below.root.child (ps id mem).2.member
    · exact fun id mem => ((ps id mem).2.stmt (by decide)).2
    · have hd := emittable.fair.distinct o.root .root
      rw [o.tree.children_of_stmt hf] at hd
      refine List.Pairwise.imp_of_mem (fun {first snd} isFirst isSecond ne node hb => ?_) hd
      exact emittable.linked.disjoint_siblings .root (ps snd isSecond).2.member
        (ps first isFirst).2.member ne hb
  | method name qs rets body =>
    refine ⟨[o.root], by simp [Course.methods, renamed, Stmt.renamed], ?_, ?_, List.pairwise_singleton _ _⟩
    · intro id mem
      obtain rfl := List.mem_singleton.mp mem
      exact .root
    · intro id mem
      obtain rfl := List.mem_singleton.mp mem
      exact ⟨_, hf, rfl⟩
  | _ => simp [Stmt.isContainer, Stmt.isMethod] at isTop

end Outset

namespace Course

open CourseM

variable {course resolved validated : Course} {cap : Option Nat} {outcome : Outcome} {root : NodeId}

/-- What the constants of the symbol table stand for can be read. -/
def ReadsConstants (course : Course) : Prop :=
  ∀ ty v, course.Denoted (.constant ty v) → ∃ term, course.work.pool.Means v term

/-- A unit that is valid without a serious report can be emitted. -/
theorem Starts.emittable (starts : course.Starts) (reads : course.ReadsConstants)
    (formed : course.work.tree.IsWellFormed course.root)
    (ranResolve : resolve cap course = .ok outcome resolved)
    (ranValidate : validate resolved = .ok (some root) validated) (quiet : ¬validated.work.Loud)
    (tested : ¬validated.work.UsesUntested course.work.tree course.root) :
    ∃ o : Outset, o.tree = course.work.tree ∧ o.root = course.root ∧
    o.Emittable validated.work := by
  have ran := work_of_validate ranValidate
  rw [(starts.logs_resolved ranResolve).2] at ran
  have quietResolved : ¬resolved.work.Loud :=
    (validationInvariant_loud.keeps_validate trivial).quiet ran quiet
  -- values of constants are followed through resolution along with the types of the symbol table
  let denoted : Component → Prop := fun comp => course.Denoted comp ∨
    ∃ ty v, course.Denoted (.constant ty v) ∧ comp = .type v
  have hn : course.work.Named course.work.tree denoted := by
    refine ⟨.refl _, fun sym mem => .inl ⟨sym, mem, rfl⟩, ?_, fun id => ?_, fun id stage => ?_⟩
    · rintro ty (ht | ⟨_, v, isConstant, eq⟩)
      · exact starts.known ty ht
      · obtain rfl := Component.type.inj eq
        exact reads _ _ isConstant
    · simp [Tree.stage, starts.built.blank, Stage.isUpTo, Stage.rank]
    · simp [Tree.stage, starts.built.blank] at stage
  obtain ⟨left, ready⟩ := resolve_ready starts.built.toIsLinked starts.built.present starts.fresh rfl hn
    ranResolve quietResolved
  let o : Outset := ⟨course.work.tree, course.root, left, denoted⟩
  have fair : o.Fair := Outset.fair_of_built starts.built ready
  have seen := Outset.visited_validate ready fair ran quiet
  have founded := founded_of_validate starts.built.toIsFresh ranResolve ranValidate
  refine ⟨o, rfl, rfl, fair, seen.checked, seen.valid rfl,
    (kept_of_validate starts.built.toIsFresh ranResolve ranValidate).toSettled, formed, ?_, tested⟩
  intro id v hb hk
  rcases founded id v hk with ⟨k, hf⟩ | ⟨name, ty, isName, bound⟩
  · exact ⟨some k, Pool.get_of_value hf⟩
  · have noType : o.tree.type? id = none := Resolution.type?_eq_none_of_expr isName
    have kept : id ∉ o.left := by
      intro isLeft
      have ht := fair.types id isLeft
      simp [noType] at ht
    have complete : o.tree.completable id = true := by
      by_contra incomplete
      obtain ⟨text, bad⟩ := fair.complete id hb (by simpa using incomplete)
      simp [noType] at bad
    obtain ⟨binding, here, refers⟩ := (seen.checked.answers id hb kept complete).name name isName
    rw [bound] at here
    cases here
    rcases refers.1 with isConstant | ⟨_, _, _, eq⟩
    · obtain ⟨term, means⟩ := ready.known v (.inr ⟨ty, v, isConstant, rfl⟩)
      have means := means.extends seen.passes.toLater.pool
      cases means with
      | intro hf => exact ⟨_, hf⟩
    · simp at eq

theorem exists_emit {methods : List Method} {ids : List NodeId} {emitted : Course}
    (members : Course.methods course.work.tree course.root = .ok ids)
    (ran : emitMethods ids course = .ok methods emitted) :
    ∃ methods t, emit course = .ok methods t := by
  suffices ended : ∃ t, (do
      unless (← tree).isMethod course.root do
        onWork (.setStage course.root .emitted)
      pure methods : CourseM (List Method)) emitted = .ok methods t by
    obtain ⟨t, ended⟩ := ended
    refine ⟨methods, t, bind_ok.mpr ⟨course, course, get_ok.mpr ⟨rfl, rfl⟩, ?_⟩⟩
    refine bind_ok.mpr ⟨_, course, tree_ok.mpr ⟨rfl, rfl⟩, ?_⟩
    simp only [members]
    exact bind_ok.mpr ⟨methods, emitted, ran, ended⟩
  by_cases hm : emitted.work.tree.isMethod course.root = true
  · refine ⟨emitted, bind_ok.mpr ⟨_, emitted, tree_ok.mpr ⟨rfl, rfl⟩, ?_⟩⟩
    simp [hm]
  · refine ⟨{ emitted with
        work := emitted.work.withTree (emitted.work.tree.setStage course.root .emitted) },
      bind_ok.mpr ⟨_, emitted, tree_ok.mpr ⟨rfl, rfl⟩, ?_⟩⟩
    simp only [hm]
    exact bind_ok.mpr ⟨(), _, onWork_ok.mpr ⟨_, WorkM.setStage_ok.mpr rfl, rfl⟩, rfl⟩

/-- A well-formed unit that is valid without a serious report is emitted. The one exception is a
loop that tests last: if a condition of it is known never to hold, no condition is emitted, and its
body must not refer to what they declare. -/
theorem valid_unit_is_emitted (starts : course.Starts) (reads : course.ReadsConstants)
    (formed : course.work.tree.IsWellFormed course.root)
    (ranResolve : resolve cap course = .ok outcome resolved)
    (ranValidate : validate resolved = .ok (some root) validated)
    (quiet : validated.work.sink.hasSerious = false)
    (tested : ¬validated.work.UsesUntested course.work.tree course.root) :
    ∃ methods after, emit validated = .ok methods after := by
  have logs : validated.work.Logs :=
    logs_validate.keeps resolved _ validated (starts.logs_resolved ranResolve).1 ranValidate
  have silent : ¬validated.work.Loud := by
    rw [logs.loud_iff, quiet]
    simp
  obtain ⟨o, sameTree, sameRoot, emittable⟩ :=
    starts.emittable reads formed ranResolve ranValidate silent tested
  obtain ⟨ids, members, apart⟩ := emittable.exists_members
  have kept := kept_of_validate starts.built.toIsFresh ranResolve ranValidate
  have isRoot : validated.root = o.root := by
    obtain ⟨stmt, found, -⟩ := formed.top
    have strips := strips_of_validate starts.built.toIsFresh ranResolve ranValidate
    obtain ⟨work, -, rfl⟩ := validate_ok ranValidate
    rw [sameRoot]
    exact strips.eq_of_stmt (by simp [found])
  have awaits : Outset.Awaits emittable ids validated.work :=
    { tracks := ⟨emittable.settled, fun _ => rfl, fun _ => rfl, rfl⟩
      carries :=
        { settled := emittable.settled
          waiting := fun id stage isStmt => by
            have hosts := kept.staged id (by rw [stage]; decide)
            rw [← sameTree, ← sameRoot] at hosts
            exact hosts isStmt
          broken := fun _ => rfl }
      unsent := fun id member other below =>
        emittable.valid_of_below ((apart.below id member).trans below) }
  obtain ⟨methods, emitted, ran⟩ := awaits.exists_methods apart
  rw [← isRoot] at members
  exact exists_emit members ran

end Course

/-- A unit whose method goes on as long as the local that a condition behind the loop declares is
not null and another condition holds. The body of the loop uses the local. -/
def lastTestUnit (cond : Expr) : Tree where
  nodes := #[{ form := .type (.named ["String"] []), parent := some ⟨1⟩ },
    { form := .type (.nullable ⟨0⟩), parent := some ⟨12⟩ },
    { form := .type (.named ["Boolean"] []), parent := some ⟨12⟩ },
    { form := .type (.named ["String"] []), parent := some ⟨5⟩ },
    { form := .expr (.name "m"), parent := some ⟨5⟩ },
    { form := .stmt (.condDecl ⟨3⟩ "s" ⟨4⟩), parent := some ⟨10⟩ },
    { form := .expr cond, parent := some ⟨10⟩ },
    { form := .expr (.name "s"), parent := some ⟨8⟩ },
    { form := .stmt (.evaluate ⟨7⟩), parent := some ⟨9⟩ },
    { form := .stmt (.block [⟨8⟩]), parent := some ⟨10⟩ },
    { form := .stmt (.whileLoop [⟨5⟩, ⟨6⟩] ⟨9⟩ true), parent := some ⟨11⟩ },
    { form := .stmt (.block [⟨10⟩]), parent := some ⟨12⟩ },
    { form := .stmt (.method "run" [⟨"m", ⟨1⟩⟩, ⟨"b", ⟨2⟩⟩] [] ⟨11⟩) }]
  root := some ⟨12⟩

/-- A loop whose second condition can change. -/
def askingUnit : Tree := lastTestUnit (.name "b")

/-- A loop whose second condition never holds. -/
def untestedUnit : Tree := lastTestUnit (.literal (.bool false))

theorem askingUnit_isBuilt : askingUnit.IsBuilt ⟨12⟩ :=
  Tree.isBuilt_of_table (Tree.isFresh_of_table (by decide) (by decide) (by decide)) rfl (by decide)

theorem untestedUnit_isBuilt : untestedUnit.IsBuilt ⟨12⟩ :=
  Tree.isBuilt_of_table (Tree.isFresh_of_table (by decide) (by decide) (by decide)) rfl (by decide)

theorem askingUnit_isWellFormed : askingUnit.IsWellFormed ⟨12⟩ :=
  Tree.isWellFormed_of_table askingUnit_isBuilt.toIsFresh rfl rfl (by decide)

theorem untestedUnit_isWellFormed : untestedUnit.IsWellFormed ⟨12⟩ :=
  Tree.isWellFormed_of_table untestedUnit_isBuilt.toIsFresh rfl rfl (by decide)

/-- Whether no condition of a loop that tests last is known. -/
def Work.testsOpenly (work : Work) : Bool :=
  work.tree.nodes.all fun node =>
    match node.form with
    | .stmt (.whileLoop conds _ true) => conds.all fun cond => (work.tree.facts cond).constant.isNone
    | _ => true

theorem Work.not_usesUntested {work : Work} {s : Tree} {root : NodeId}
    (openly : work.testsOpenly = true) : ¬work.UsesUntested s root := by
  rintro ⟨loop, conds, body, -, isLoop, ⟨cond, mem, v, hk, -⟩, -⟩
  obtain ⟨node, hp, here⟩ := Option.map_eq_some_iff.mp (work.tree.form?_of_stmt isLoop)
  obtain ⟨hi, hf⟩ := Array.getElem?_eq_some_iff.mp hp
  have unknown := Array.all_eq_true.mp openly loop.index hi
  simp only [hf, here, List.all_eq_true] at unknown
  have none := unknown cond mem
  simp [hk] at none

/-- The unit is valid without a serious report and emitted. -/
theorem askingUnit_is_emitted : askingUnit.IsBuilt ⟨12⟩ ∧ askingUnit.IsWellFormed ⟨12⟩ ∧
    ∃ outcome resolved root validated methods after,
      Course.resolve none (Session.courseOf {} {} askingUnit ⟨12⟩) = .ok outcome resolved ∧
      Course.validate resolved = .ok (some root) validated ∧
      validated.work.sink.hasSerious = false ∧
      ¬validated.work.UsesUntested askingUnit ⟨12⟩ ∧
      Course.emit validated = .ok methods after := by
  have checked : Step.succeeds (Course.resolve none) (Session.courseOf {} {} askingUnit ⟨12⟩)
      (fun _ resolved => Step.succeeds Course.validate resolved fun root validated =>
        root.isSome && !validated.work.sink.hasSerious && validated.work.testsOpenly) = true := by
    cbv
  obtain ⟨outcome, resolved, ranResolve, checked⟩ := Step.succeeds_iff.mp checked
  obtain ⟨root, validated, ranValidate, checked⟩ := Step.succeeds_iff.mp checked
  simp only [Bool.and_eq_true, Option.isSome_iff_exists, Bool.not_eq_true'] at checked
  obtain ⟨⟨⟨root, rfl⟩, quiet⟩, openly⟩ := checked
  have untested : ¬validated.work.UsesUntested askingUnit ⟨12⟩ := Work.not_usesUntested openly
  obtain ⟨methods, after, emitted⟩ := Course.valid_unit_is_emitted
    (Session.starts_courseOf {} {} askingUnit askingUnit_isBuilt (by simp))
    (by rintro type value ⟨symbol, member, -⟩; cases member)
    askingUnit_isWellFormed ranResolve ranValidate quiet untested
  exact ⟨askingUnit_isBuilt, askingUnit_isWellFormed, outcome, resolved, root, validated, methods, after,
    ranResolve, ranValidate, quiet, untested, emitted⟩

/-- The unit is valid without any report, and its emission stops on the local that no condition has
declared. -/
theorem untestedUnit_stops_emission : untestedUnit.IsBuilt ⟨12⟩ ∧ untestedUnit.IsWellFormed ⟨12⟩ ∧
    ∃ outcome resolved root validated after,
      Course.resolve none (Session.courseOf {} {} untestedUnit ⟨12⟩) = .ok outcome resolved ∧
      Course.validate resolved = .ok (some root) validated ∧
      validated.work.sink.entries = [] ∧
      Course.emit validated = .error (.usedTooEarly "s") after := by
  have checked : Step.succeeds (Course.resolve none) (Session.courseOf {} {} untestedUnit ⟨12⟩)
      (fun _ resolved => Step.succeeds Course.validate resolved fun root validated =>
        root.isSome && validated.work.sink.entries.isEmpty &&
          match Course.emit validated with
          | .error (.usedTooEarly name) _ => name == "s"
          | _ => false) = true := by
    cbv
  obtain ⟨outcome, resolved, ranResolve, checked⟩ := Step.succeeds_iff.mp checked
  obtain ⟨root, validated, ranValidate, checked⟩ := Step.succeeds_iff.mp checked
  simp only [Bool.and_eq_true, Option.isSome_iff_exists, List.isEmpty_iff] at checked
  obtain ⟨⟨⟨root, rfl⟩, silent⟩, stops⟩ := checked
  refine ⟨untestedUnit_isBuilt, untestedUnit_isWellFormed, outcome, resolved, root, validated, ?_⟩
  split at stops
  · rename_i name after stopped
    exact ⟨after, ranResolve, ranValidate, silent, by rw [stopped, eq_of_beq stops]⟩
  · simp at stops

/-- A unit whose loop returns in its body the local that the condition behind the body declares. -/
def aheadUnit : Tree where
  nodes := #[{ form := .type (.named ["String"] []), parent := some ⟨1⟩ },
    { form := .type (.nullable ⟨0⟩), parent := some ⟨10⟩ },
    { form := .type (.named ["String"] []), parent := some ⟨10⟩ },
    { form := .type (.named ["String"] []), parent := some ⟨5⟩ },
    { form := .expr (.name "m"), parent := some ⟨5⟩ },
    { form := .stmt (.condDecl ⟨3⟩ "s" ⟨4⟩), parent := some ⟨8⟩ },
    { form := .expr (.name "s"), parent := some ⟨7⟩ },
    { form := .stmt (.returnValues [⟨6⟩]), parent := some ⟨8⟩ },
    { form := .stmt (.whileLoop [⟨5⟩] ⟨7⟩ true), parent := some ⟨9⟩ },
    { form := .stmt (.block [⟨8⟩]), parent := some ⟨10⟩ },
    { form := .stmt (.method "run" [⟨"m", ⟨1⟩⟩] [⟨2⟩] ⟨9⟩) }]
  root := some ⟨10⟩

/-- The unit is emitted, and its method returns a register that is not the parameter's and that
nothing has declared or written. -/
theorem aheadUnit_reads_ahead : aheadUnit.IsBuilt ⟨10⟩ ∧
    (Session.compile {} {} aheadUnit).report.status = .emitted ∧
    ∃ method, (Session.compile {} {} aheadUnit).report.methods = [method] ∧
      method.ops = [.enter, .returnValues [.register ⟨1⟩]] ∧ method.Goes 0 1 := by
  have built : aheadUnit.IsBuilt ⟨10⟩ :=
    Tree.isBuilt_of_table (Tree.isFresh_of_table (by decide) (by decide) (by decide)) rfl (by decide)
  exact ⟨built, by cbv, _, by cbv, rfl, .next rfl rfl⟩

end TreeCompiler
