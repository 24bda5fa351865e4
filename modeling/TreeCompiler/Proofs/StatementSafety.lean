import TreeCompiler.Proofs.EmissionSafety

/-!
# Safe emission of statements

The code of a statement starts with as many open scopes as the statements around it enter, and the
jumps inside it find their labels open. This goes down from a statement to the statements in it, so
that every statement is emitted safely.
-/

namespace TreeCompiler

open Step

variable {tgt : Label} {ids conds : List NodeId}

/-- A statement whose code may be emitted in a frame: the statements that are being emitted lie
above it, and the labels of those that jumps may go to are open. -/
structure Plan.Seats (plan : Plan) (fr : Frame) (id : NodeId) : Prop where
  hosts : plan.start.Hosts plan.root id
  above : ∀ own ∈ fr.busy, id.index < own.index
  leads : ∀ tgt ∈ plan.start.ancestorsInMethod id, ∀ kind : JumpKind,
    (plan.start.stmt? tgt).any (·.offers kind) → (kind = .breakOut → plan.broken tgt = true) →
    ∃ sc, (tgt, sc) ∈ fr.scopes ∧
      fr.ports.Leads ⟨sc, Emission.jumpRole kind⟩ (plan.start.innerLevel tgt)

/-- A node that is no statement, or a statement that may be emitted with a number of open scopes. -/
def Plan.Ready (plan : Plan) (fr : Frame) (n : Nat) (id : NodeId) : Prop :=
  (plan.start.stmt? id).isSome → plan.Seats fr id ∧ n = plan.start.level id

/-- A frame inside a statement, in which nothing is lost. -/
structure Frame.Inside (outer : Frame) (id : NodeId) (i : Frame) : Prop where
  busy : ∀ own ∈ i.busy, own = id ∨ own ∈ outer.busy
  scopes : ∀ entry ∈ outer.scopes, entry ∈ i.scopes
  leads : ∀ l level, outer.ports.Leads l level → i.ports.Leads l level

namespace Frame.Inside

variable {outer i : Frame} {id : NodeId} {l : Label}

theorem refl (fr : Frame) (id : NodeId) : fr.Inside id fr where
  busy _ mem := .inr mem
  scopes _ mem := mem
  leads _ _ hl := hl

theorem busier (fr : Frame) (id : NodeId) : fr.Inside id (fr.busier id) where
  busy _ mem := List.mem_cons.mp mem
  scopes _ mem := mem
  leads _ _ hl := hl

theorem claimed (fr : Frame) (id : NodeId) (sc : UInt32) :
    fr.Inside id (fr.claimed id sc) where
  busy _ mem := List.mem_cons.mp mem
  scopes _ mem := List.mem_cons_of_mem _ mem
  leads _ _ hl := hl

theorem opened (hi : outer.Inside id i) (lacks : i.ports.Lacks l) (level : Nat) :
    outer.Inside id (i.opened l level) where
  busy := hi.busy
  scopes := hi.scopes
  leads x hf hl := (hi.leads x hf hl).opened lacks

theorem headed (hi : outer.Inside id i) (lacks : i.ports.Lacks l) (level : Nat) :
    outer.Inside id (i.headed l level) where
  busy := hi.busy
  scopes := hi.scopes
  leads x hf hl := (hi.leads x hf hl).headed lacks

end Frame.Inside

/-- The labels of the jumps that a statement offers are open in a frame. -/
def Plan.Offers (plan : Plan) (id : NodeId) (stmt : Stmt) (fr : Frame) : Prop :=
  ∀ kind : JumpKind, stmt.offers kind → (kind = .breakOut → plan.broken id = true) →
    ∃ sc, (id, sc) ∈ fr.scopes ∧
      fr.ports.Leads ⟨sc, Emission.jumpRole kind⟩ (plan.start.innerLevel id)

namespace Plan

variable {plan : Plan} {outer i : Frame} {id : NodeId} {stmt : Stmt}

/-- The statements inside a statement may be emitted in a frame inside it. -/
theorem Seats.ready (seats : plan.Seats outer id) (hi : outer.Inside id i)
    (offers : plan.Offers id stmt i) {tree : Tree} (peels : plan.start.Peels tree)
    (hf : tree.stmt? id = some stmt) (hp : stmt.isMethod = false) {c : NodeId}
    (mem : c ∈ stmt.children) : plan.Ready i (plan.start.innerLevel id) c := by
  intro hs
  have isChild := peels.child_of_stmt hf mem hs
  have hb := seats.hosts.isBelow
  have noMethod : plan.start.isMethod id = false := by
    rw [← peels.isMethod_eq, Tree.isMethod, hf]
    exact hp
  have lower := plan.linked.upward id c hb isChild
  obtain ⟨orig, here⟩ : ∃ orig, plan.start.stmt? id = some orig := by
    rw [← Option.isSome_iff_exists, ← peels.isSome_stmt?, hf]
    rfl
  refine ⟨⟨?_, ?_, ?_⟩, (plan.linked.level_child hb isChild noMethod).symm⟩
  · exact seats.hosts.child here (by rwa [← plan.start.children_of_stmt here])
  · intro own busy
    rcases hi.busy own busy with rfl | busy
    · exact lower
    · have := seats.above own busy
      omega
  · intro tgt above kind offered used
    rw [plan.linked.ancestorsInMethod_child hb isChild, noMethod] at above
    rcases List.mem_cons.mp above with rfl | above
    · refine offers kind ?_ used
      have eq := peels.any_stmt? (fun _ stmt => by cases kind <;> cases stmt <;> rfl :
        ∀ ren stmt, (Stmt.renamed ren stmt).offers kind = stmt.offers kind) tgt
      rw [hf, offered] at eq
      exact eq
    · obtain ⟨sc, owned, hl⟩ := seats.leads tgt above kind offered used
      exact ⟨sc, hi.scopes _ owned, hi.leads _ _ hl⟩

end Plan

namespace Emission

open EmitM

variable {plan : Plan} {fr : Frame} {n : Nat} {e : Emission}

/-- An emitter that emits everything safely. -/
structure Emitter.Careful (plan : Plan) (em : Emitter) : Prop where
  expr : SafeExpr plan em.expr
  branch : SafeBranch plan em.branch
  stmt : ∀ ⦃id fr n e⦄, e.Fits plan fr n → plan.Ready fr n id →
    Safe (em.stmt id) e fun _ e' => e'.Fits plan fr n
  /-- Where control does not arrive, nothing is emitted. -/
  idle : ∀ ⦃id fr n e⦄, e.Fits plan fr n → e.code.reachable = false →
    Safe (em.stmt id) e fun _ e' => e'.Fits plan fr n ∧ e'.code.reachable = false

section Conditions

variable {em : Emitter} (care : em.Careful plan)

theorem safe_addDeclaration (fits : e.Fits plan fr n) {reg : Register} (ty : NodeId)
    (hb : reg.index < fr.floor) : Safe (addDeclaration reg ty) e (Fitting plan fr n) := by
  refine Safe.bind_ok rfl ?_
  cases (e.work.tree.facts ty).type with
  | some ty =>
    refine fits.safe_addPlain rfl rfl (by simp [Op.operands]) fun x writes => ?_
    rwa [← Option.some.inj writes]
  | none => exact Safe.throw (by simp)

include care

theorem safe_condDecl (fits : e.Fits plan fr n) (cond ty v : NodeId) (out : Bool)
    (hl : fr.ports.Leads tgt n) :
    Safe (em.condDecl cond ty v out tgt) e (Fitting plan fr n) := by
  refine Safe.bind (fits.safe_declare cond) ?_
  rintro reg e1 ⟨floor1, le1, fits, hb⟩
  refine Safe.bind (safe_addDeclaration fits ty hb) fun _ e2 fits => ?_
  refine Safe.bind (care.expr fits) ?_
  rintro source e3 ⟨floor2, le2, fits, sourceBelow⟩
  have hb : reg.index < floor2 := Nat.lt_of_lt_of_le hb le2
  have read : (Operand.register reg).Below floor2 := Operand.below_register hb
  refine Safe.bind (fits.safe_move sourceBelow hb) fun _ e4 fits => ?_
  have settle : ∀ e, e.Fits plan (fr.raised floor2) n →
      Safe (EmitM.setStage cond .emitted) e (Fitting plan fr n) := fun e fits =>
    (fits.lowered (Nat.le_trans le1 le2)).safe_setStage cond
  cases out with
  | true =>
    refine Safe.bind fits.safe_newHelper ?_
    rintro skip e5 ⟨fits, lacks⟩
    refine Safe.bind (fits.safe_test rfl rfl rfl rfl read Ports.leads_opened_self) fun _ e6 fits => ?_
    refine Safe.bind (fits.safe_addJump (hl.opened lacks)) fun _ e7 fits => ?_
    refine Safe.bind (fits.safe_placeJoin lacks fun _ => rfl) fun _ e8 fits => ?_
    exact settle e8 fits
  | false =>
    refine Safe.bind (fits.safe_test rfl rfl rfl rfl read hl) fun _ e5 fits => ?_
    exact settle e5 fits

theorem safe_cond (fits : e.Fits plan fr n) (own cond : NodeId) (out : Bool)
    (hl : fr.ports.Leads tgt n) :
    Safe (em.cond own cond out tgt) e (Fitting plan fr n) := by
  refine Safe.bind_ok rfl ?_
  split
  · split
    · exact safe_condDecl care fits _ _ _ _ hl
    · exact care.branch fits hl
  · exact Safe.throw (by simp)

theorem safe_condsOrJump (fits : e.Fits plan fr n) (own : NodeId)
    (hl : fr.ports.Leads tgt n) (ids : List NodeId) :
    Safe (em.condsOrJump own tgt ids) e (Fitting plan fr n) := by
  induction ids generalizing e with
  | nil => exact Safe.pure fits
  | cons id rest ih =>
    refine Safe.bind_ok rfl ?_
    cases e.code.reachable with
    | true => exact Safe.bind (safe_cond care fits own id false hl) fun _ _ fits => ih fits
    | false => exact Safe.pure fits

theorem safe_leadingConds (fits : e.Fits plan fr n) (own : NodeId) {skip : Label}
    (hl : fr.ports.Leads skip n) (ids : List NodeId) :
    Safe (em.leadingConds own skip ids) e (Fitting plan fr n) := by
  induction ids generalizing e with
  | nil => exact Safe.pure fits
  | cons id rest ih =>
    exact Safe.bind (safe_cond care fits own id false hl) fun _ _ fits => ih fits

theorem safe_condsThenJump (fits : e.Fits plan fr n) (own : NodeId) (conds : List NodeId)
    (hl : fr.ports.Leads tgt n) :
    Safe (em.condsThenJump own conds tgt) e (Fitting plan fr n) := by
  unfold Emitter.condsThenJump
  split
  · exact fits.safe_addJump hl
  · split
    · exact safe_cond care fits own _ true hl
    · refine Safe.bind fits.safe_newHelper ?_
      rintro skip e1 ⟨fits, lacks⟩
      refine Safe.bind (safe_leadingConds care fits own Ports.leads_opened_self _) fun _ e2 fits => ?_
      refine Safe.bind (safe_cond care fits own _ true (hl.opened lacks)) fun _ e3 fits => ?_
      exact fits.safe_placeJoin lacks fun _ => rfl

omit care in
theorem safe_declareConds (fits : e.Fits plan fr n) (ids : List NodeId) :
    Safe (Emitter.declareConds ids) e (Fitting plan fr n) := by
  induction ids generalizing e with
  | nil => exact Safe.pure fits
  | cons id rest ih =>
    refine Safe.bind_ok rfl ?_
    split
    · refine Safe.bind (fits.safe_declare id) ?_
      rintro reg e1 ⟨floor, le, fits, -⟩
      exact ih (fits.lowered le)
    · exact ih fits

end Conditions

/-! ### Statements -/

/-- A statement whose code is about to be emitted. -/
structure Enters (plan : Plan) (fr : Frame) (n : Nat) (id : NodeId) (stmt : Stmt) (e : Emission) :
    Prop where
  fits : e.Fits plan fr n
  seats : plan.Seats fr id
  level : n = plan.start.level id
  found : e.work.tree.stmt? id = some stmt
  waiting : e.work.tree.stage id ≠ .emitted

/-- A statement that has taken its labels, none of which is in use yet. -/
structure Owns (plan : Plan) (fr : Frame) (n : Nat) (id : NodeId) (sc : UInt32)
    (e : Emission) : Prop where
  fits : e.Fits plan (fr.claimed id sc) n
  taken : (e.work.tree.facts id).labelScope = some sc
  free : ∀ kind : LabelKind, kind.isHelper = false →
    e.code.offset? ⟨sc, kind⟩ = none ∧ fr.ports.Lacks ⟨sc, kind⟩

theorem label_of_taken {own : NodeId} {sc : UInt32}
    (taken : (e.work.tree.facts own).labelScope = some sc) (kind : LabelKind) :
    EmitM.label own kind e = .ok ⟨sc, kind⟩ e := by
  refine label_ok.mpr ⟨?_, ?_⟩
  · simp [Tree.labelScope, taken]
  · simp [withScope, Tree.labelScope, taken]

/-- The labels of a statement that is being emitted may be jumped to once they are opened. -/
theorem Fits.openOwn {id : NodeId} {sc : UInt32} {kind : LabelKind} (fits : e.Fits plan fr n)
    (busy : id ∈ fr.busy) (taken : (e.work.tree.facts id).labelScope = some sc)
    (hp : kind.isHelper = false) (unplaced : e.code.offset? ⟨sc, kind⟩ = none)
    (lacks : fr.ports.Lacks ⟨sc, kind⟩) (level : Nat) :
    e.Fits plan (fr.opened ⟨sc, kind⟩ level) n :=
  fits.opened level unplaced lacks ((takes_iff_of_kind hp).mpr ⟨id, taken, .inr busy⟩)

namespace Enters

variable {id : NodeId} {stmt : Stmt} (enters : Enters plan fr n id stmt e)

include enters

theorem idle : id ∉ fr.busy := fun busy =>
  Nat.lt_irrefl _ (enters.seats.above id busy)

theorem innerLevel_eq :
    plan.start.innerLevel id = n + if plan.start.entersScope id then 1 else 0 := by
  rw [enters.level]
  rfl

/-- The statements inside the statement may be emitted in a frame inside it. -/
theorem ready {i : Frame} (hi : fr.Inside id i) (offers : plan.Offers id stmt i)
    (hp : stmt.isMethod = false) :
    ∀ c ∈ stmt.children, plan.Ready i (plan.start.innerLevel id) c := fun _ mem =>
  enters.seats.ready hi offers enters.fits.settled.peels enters.found hp mem

theorem owns {sc : UInt32} (taken : (e.work.tree.facts id).labelScope = some sc) :
    Owns plan fr n id sc e where
  fits := enters.fits.claimed taken
  taken := taken
  free _ hp := enters.fits.fresh taken enters.waiting enters.idle hp

theorem safe_label (kind : LabelKind) : Safe (EmitM.label id kind) e fun l e' =>
    ∃ sc, l = ⟨sc, kind⟩ ∧ Owns plan fr n id sc e' ∧
      Enters plan fr n id stmt e' := by
  have hi : e.work.tree.Has id := e.work.tree.has_of_stmt enters.found
  have t : Enters plan fr n id stmt (e.withScope id) := by
    refine ⟨enters.fits.withScope hi, enters.seats, enters.level, ?_, ?_⟩
    · rw [← enters.found]
      exact congrArg (Option.bind · Form.stmt?) (Work.form?_withScope id id)
    · have eq : (e.withScope id).work.tree.stage id = e.work.tree.stage id :=
        e.work.facts_withScope_of Facts.stage (fun _ _ => rfl) id id
      rw [eq]
      exact enters.waiting
  exact Safe.of_ok rfl ⟨_, rfl, t.owns (Fits.labelScope_withScope hi), t⟩

end Enters

theorem offers_of_plain {id : NodeId} {stmt : Stmt} (hp : ∀ kind, stmt.offers kind = false)
    (fr : Frame) : plan.Offers id stmt fr := by
  intro kind offers
  simp [hp] at offers

section Statements

variable {em : Emitter} (care : em.Careful plan)

include care

theorem safe_sequence (fits : e.Fits plan fr n) (ready : ∀ id ∈ ids, plan.Ready fr n id)
    (warn : Bool) : Safe (em.sequence warn ids) e (Fitting plan fr n) := by
  induction ids generalizing e warn with
  | nil => exact Safe.pure fits
  | cons id rest ih =>
    have ih := fun e fits warn => ih (e := e) fits (fun id mem => ready id (by simp [mem])) warn
    refine Safe.bind_ok rfl ?_
    cases e.code.reachable with
    | true => exact Safe.bind (care.stmt fits (ready id (by simp))) fun _ e' fits => ih e' fits warn
    | false =>
      refine Safe.bind (fits.safe_setReachable id false) fun _ e1 fits => ?_
      refine Safe.bind_ok rfl ?_
      dsimp only
      split
      · exact Safe.bind (fits.safe_report _) fun _ e' fits => ih e' fits _
      · exact ih e1 fits _

theorem safe_each (fits : e.Fits plan fr n) (ready : ∀ id ∈ ids, plan.Ready fr n id) :
    Safe (em.each ids) e (Fitting plan fr n) := by
  induction ids generalizing e with
  | nil => exact Safe.pure fits
  | cons id rest ih =>
    exact Safe.bind (care.stmt fits (ready id (by simp))) fun _ e' fits =>
      ih fits fun id mem => ready id (by simp [mem])

theorem safe_each_idle (fits : e.Fits plan fr n) (ids : List NodeId)
    (stopped : e.code.reachable = false) : Safe (em.each ids) e (Fitting plan fr n) := by
  induction ids generalizing e with
  | nil => exact Safe.pure fits
  | cons id rest ih =>
    exact Safe.bind (care.idle fits stopped) fun _ e' kept => ih kept.1 kept.2

theorem safe_block {id : NodeId} {stmts : List NodeId} (warn : Bool)
    (enters : Enters plan fr n id (.block stmts) e) :
    Safe (em.stmtBody warn id (.block stmts)) e fun _ e' =>
      e'.Fits plan (fr.busier id) n := by
  have ready := enters.ready (.busier fr id) (offers_of_plain (fun kind => by cases kind <;> rfl) _) rfl
  have fits := enters.fits.busier id
  refine Safe.bind_ok rfl ?_
  rw [fits.settled.peels.entersScope_eq]
  refine Safe.bind (fits.safe_enterIf enters.innerLevel_eq) fun _ e1 fits => ?_
  refine Safe.bind (safe_sequence care fits ready warn) fun _ e2 fits => ?_
  exact fits.safe_exitIf enters.innerLevel_eq

theorem safe_ifElse {id thenBranch : NodeId} {els : Option NodeId}
    (enters : Enters plan fr n id (.ifElse conds thenBranch els) e) :
    Safe (em.ifElse id conds thenBranch els) e fun _ e' =>
      e'.Fits plan (fr.busier id) n := by
  refine Safe.bind (enters.safe_label .elseBranch) ?_
  rintro elseLabel e1 ⟨sc, rfl, ⟨fits, taken, free⟩, enters⟩
  refine Safe.bind_ok (label_of_taken taken .endBranch) ?_
  refine Safe.bind_ok rfl ?_
  rw [fits.settled.peels.entersScope_eq]
  have level := enters.innerLevel_eq
  have base := Frame.Inside.claimed fr id sc
  have ready : ∀ i, fr.Inside id i → ∀ c ∈ Stmt.children _,
      plan.Ready i (plan.start.innerLevel id) c := fun _ hi =>
    enters.ready hi (offers_of_plain (fun kind => by cases kind <;> rfl) _) rfl
  obtain ⟨elseFree, elseLacks⟩ := free .elseBranch rfl
  obtain ⟨endFree, endLacks⟩ := free .endBranch rfl
  have busy : id ∈ (fr.claimed id sc).busy := List.mem_cons_self
  cases els with
  | none =>
    have fits := fits.openOwn busy taken rfl elseFree elseLacks (plan.start.innerLevel id)
    refine Safe.bind (fits.safe_enterIf level) fun _ e2 fits => ?_
    refine Safe.bind (safe_condsOrJump care fits id Ports.leads_opened_self conds) fun _ e3 fits => ?_
    refine Safe.bind (care.stmt fits (ready _ (base.opened elseLacks _) thenBranch
      (by simp [Stmt.children]))) fun _ e4 fits => ?_
    refine Safe.bind (fits.safe_placeJoin elseLacks fun _ => rfl) fun _ e5 fits => ?_
    exact fits.released.safe_exitIf level
  | some els =>
    have elseLacks' : ((fr.claimed id sc).opened ⟨sc, .endBranch⟩
        (plan.start.innerLevel id)).ports.Lacks ⟨sc, .elseBranch⟩ :=
      (Ports.lacks_opened (by simp)).mpr elseLacks
    have fits := (fits.openOwn busy taken rfl endFree endLacks (plan.start.innerLevel id)).openOwn busy
      taken rfl elseFree elseLacks' (plan.start.innerLevel id)
    refine Safe.bind (fits.safe_enterIf level) fun _ e2 fits => ?_
    refine Safe.bind (safe_condsOrJump care fits id Ports.leads_opened_self conds) fun _ e3 fits => ?_
    refine Safe.bind (care.stmt fits (ready _ ((base.opened endLacks _).opened elseLacks' _) thenBranch
      (by simp [Stmt.children]))) fun _ e4 fits => ?_
    refine Safe.bind (fits.safe_jumpIfReachable (Ports.leads_opened_self.opened elseLacks')) ?_
    rintro ⟨⟩ e5 fits
    refine Safe.bind (fits.safe_placeJoin elseLacks' fun _ => rfl) fun _ e6 fits => ?_
    refine Safe.bind (care.stmt fits (ready _ (base.opened endLacks _) els
      (by simp [Stmt.children]))) fun _ e7 fits => ?_
    refine Safe.bind (fits.safe_placeJoin endLacks fun _ => rfl) fun _ e8 fits => ?_
    exact fits.released.safe_exitIf level

end Statements

/-! ### Loops -/

/-- A statement inside a loop, which may be emitted wherever the labels of the loop are open. -/
def LoopReady (plan : Plan) (fr : Frame) (id : NodeId) (sc : UInt32) (c : NodeId) : Prop :=
  ∀ i, fr.Inside id i → (id, sc) ∈ i.scopes →
    i.ports.Leads ⟨sc, .breakOut⟩ (plan.start.innerLevel id) →
    i.ports.Leads ⟨sc, .continueLoop⟩ (plan.start.innerLevel id) →
    plan.Ready i (plan.start.innerLevel id) c

theorem Enters.loopReady {id : NodeId} {stmt : Stmt} (enters : Enters plan fr n id stmt e)
    (sc : UInt32) (hp : stmt.isMethod = false) :
    ∀ c ∈ stmt.children, LoopReady plan fr id sc c := by
  intro c mem i hi owned breaks continues
  refine enters.ready hi (fun kind _ _ => ?_) hp c mem
  cases kind with
  | breakOut => exact ⟨sc, owned, breaks⟩
  | continueLoop => exact ⟨sc, owned, continues⟩

/-- Labels of a statement that differ in their role. -/
theorem lacks_openedAs {sc : UInt32} {x : LabelKind} {ports : Ports}
    (lacks : ports.Lacks ⟨sc, x⟩) (kind : LabelKind) (level : Nat) (ne : x ≠ kind) :
    (ports.opened ⟨sc, kind⟩ level).Lacks ⟨sc, x⟩ :=
  (Ports.lacks_opened (by simpa using ne)).mpr lacks

theorem lacks_headedAs {sc : UInt32} {x : LabelKind} {ports : Ports}
    (lacks : ports.Lacks ⟨sc, x⟩) (kind : LabelKind) (level : Nat) (ne : x ≠ kind) :
    (ports.headed ⟨sc, kind⟩ level).Lacks ⟨sc, x⟩ :=
  (Ports.lacks_headed (by simpa using ne)).mpr lacks

/-- The labels of a loop are opened: the one behind it, the one at the end of its body, and the one
where a new round starts. -/
theorem Owns.openLoop {id : NodeId} {sc : UInt32} (owns : Owns plan fr n id sc e)
    (entry : LabelKind) (hp : entry.isHelper = false) (noBreak : entry ≠ .breakOut)
    (noContinue : entry ≠ .continueLoop) (level : Nat) :
    e.Fits plan ((((fr.claimed id sc).opened ⟨sc, .breakOut⟩ level).opened
      ⟨sc, .continueLoop⟩ level).opened ⟨sc, entry⟩ level) n := by
  obtain ⟨fits, taken, free⟩ := owns
  have busy : id ∈ (fr.claimed id sc).busy := List.mem_cons_self
  obtain ⟨breakFree, breakLacks⟩ := free .breakOut rfl
  obtain ⟨continueFree, continueLacks⟩ := free .continueLoop rfl
  obtain ⟨entryFree, entryLacks⟩ := free entry hp
  have fits := fits.openOwn busy taken rfl breakFree breakLacks level
  have fits := fits.openOwn busy taken rfl continueFree
    (lacks_openedAs continueLacks .breakOut level (by simp)) level
  refine fits.openOwn busy taken hp entryFree ?_ level
  exact lacks_openedAs (lacks_openedAs entryLacks .breakOut level noBreak) .continueLoop level noContinue

section Loops

variable {em : Emitter} (care : em.Careful plan)

omit care in
theorem safe_constantConds (ids : List NodeId) : Safe (constantConds ids) e fun hk e' =>
    e' = e ∧ (hk = some true → ∀ id ∈ ids, (e.work.tree.facts id).constant.isSome) := by
  induction ids with
  | nil => exact Safe.pure ⟨rfl, by simp⟩
  | cons id rest ih =>
    have look : Safe (EmitM.constantBool id) e fun hk e' =>
        e' = e ∧ (hk = some true → (e.work.tree.facts id).constant.isSome) := by
      refine Safe.bind_ok rfl ?_
      cases (e.work.tree.facts id).constant with
      | some v => exact Fits.safe_readPool.mono fun _ _ eq => ⟨eq, fun _ => rfl⟩
      | none => exact Safe.pure ⟨rfl, by simp⟩
    refine Safe.bind look ?_
    rintro hk _ ⟨rfl, here⟩
    rcases hk with _ | _ | _
    · refine Safe.bind ih ?_
      rintro others _ ⟨rfl, -⟩
      rcases others with _ | _ | _ <;> exact Safe.pure ⟨rfl, by simp⟩
    · exact Safe.pure ⟨rfl, by simp⟩
    · refine ih.mono ?_
      rintro others _ ⟨rfl, there⟩
      exact ⟨rfl, fun always => List.forall_mem_cons.mpr ⟨here rfl, there always⟩⟩

variable {id body : NodeId} {sc : UInt32} (owns : Owns plan fr n id sc e)
  (ready : LoopReady plan fr id sc body)

include care owns ready

theorem safe_whileNever (testLast : Bool)
    (level : plan.start.innerLevel id = n + if plan.start.entersScope id then 1 else 0) :
    Safe (em.whileNever id body testLast ⟨sc, .continueLoop⟩ ⟨sc, .breakOut⟩) e fun _ e' =>
      e'.Fits plan (fr.busier id) n := by
  obtain ⟨fits, taken, free⟩ := owns
  cases testLast with
  | false => exact fits.released.safe_setReachable body false
  | true =>
    obtain ⟨breakFree, breakLacks⟩ := free .breakOut rfl
    obtain ⟨continueFree, continueLacks⟩ := free .continueLoop rfl
    have busy : id ∈ (fr.claimed id sc).busy := List.mem_cons_self
    have continueLacks :=
      lacks_openedAs continueLacks .breakOut (plan.start.innerLevel id) (by simp)
    have hi := ((Frame.Inside.claimed fr id sc).opened breakLacks
      (plan.start.innerLevel id)).opened continueLacks (plan.start.innerLevel id)
    have ready := ready _ hi List.mem_cons_self (Ports.leads_opened_self.opened continueLacks)
      Ports.leads_opened_self
    have fits := (fits.openOwn busy taken rfl breakFree breakLacks (plan.start.innerLevel id)).openOwn
      busy taken rfl continueFree continueLacks (plan.start.innerLevel id)
    refine Safe.bind_ok rfl ?_
    rw [fits.settled.peels.entersScope_eq]
    refine Safe.bind (fits.safe_enterIf level) fun _ e1 fits => ?_
    refine Safe.bind (care.stmt fits ready) fun _ e2 fits => ?_
    refine Safe.bind (fits.safe_placeJoin continueLacks fun _ => rfl) fun _ e3 fits => ?_
    refine Safe.bind (fits.safe_placeJoin breakLacks fun _ => rfl) fun _ e4 fits => ?_
    exact fits.released.safe_exitIf level

theorem safe_whileAlways (level : plan.start.innerLevel id = n) :
    Safe (em.whileAlways body ⟨sc, .repeatLoop⟩ ⟨sc, .continueLoop⟩ ⟨sc, .breakOut⟩) e
      fun _ e' => e'.Fits plan (fr.busier id) n := by
  have breakLacks := (owns.free .breakOut rfl).2
  have continueLacks := (owns.free .continueLoop rfl).2
  have repeatLacks := (owns.free .repeatLoop rfl).2
  have fits := owns.openLoop .repeatLoop rfl (by simp) (by simp) n
  have repeatBehind := lacks_openedAs repeatLacks .breakOut n (by simp)
  refine Safe.bind (fits.safe_place ?_ fun _ => rfl) ?_
  · exact lacks_openedAs repeatBehind .continueLoop n (by simp)
  rintro ⟨⟩ e1 fits
  have fits : e1.Fits plan ((((fr.claimed id sc).opened ⟨sc, .breakOut⟩ n).headed
    ⟨sc, .repeatLoop⟩ n).opened ⟨sc, .continueLoop⟩ n) n := fits
  have continueBehind := lacks_headedAs (lacks_openedAs continueLacks .breakOut n (by simp))
    .repeatLoop n (by simp)
  refine Safe.bind (fits.safe_place continueBehind fun _ => rfl) fun _ e2 fits => ?_
  have hi := (((Frame.Inside.claimed fr id sc).opened breakLacks n).headed repeatBehind
    n).headed continueBehind n
  rw [LoopReady, level] at ready
  refine Safe.bind (care.stmt fits (ready _ hi List.mem_cons_self
    ((Ports.leads_opened_self.headed repeatBehind).headed continueBehind) Ports.leads_headed_self)) ?_
  rintro ⟨⟩ e3 fits
  refine Safe.bind (fits.safe_jumpIfReachable (Ports.leads_headed_self.headed continueBehind)) ?_
  rintro ⟨⟩ e4 fits
  have fits : e4.Fits plan ((((fr.claimed id sc).headed ⟨sc, .repeatLoop⟩ n).headed
    ⟨sc, .continueLoop⟩ n).opened ⟨sc, .breakOut⟩ n) n := fits
  have breakLast := lacks_headedAs (lacks_headedAs breakLacks .repeatLoop n (by simp))
    .continueLoop n (by simp)
  refine (fits.safe_placeJoin breakLast fun _ => rfl).mono fun _ e5 fits => ?_
  have fits := fits.beheaded (lacks_headedAs continueLacks .repeatLoop n (by simp))
  exact (fits.beheaded repeatLacks).released

omit owns ready in
theorem safe_testAgain (fits : e.Fits plan fr n) (id : NodeId) (conds : List NodeId)
    (hl : fr.ports.Leads tgt n) :
    Safe (em.testAgain id conds tgt) e (Fitting plan fr n) := by
  refine Safe.bind_ok rfl ?_
  split
  · exact safe_condsThenJump care fits id conds hl
  · exact Safe.pure fits

omit care owns ready in
theorem safe_enterLoop (fits : e.Fits plan fr n) {entersScope : Bool} {i : Nat}
    (level : i = n + if entersScope then 1 else 0) (conds : List NodeId) :
    Safe (Emitter.enterLoop entersScope conds) e (Fitting plan fr i) := by
  cases entersScope with
  | true =>
    refine Safe.bind (m := EmitM.addIf true .enter) (fits.safe_enterIf level) fun _ e1 fits => ?_
    exact safe_declareConds fits conds
  | false =>
    exact fits.safe_enterIf level

theorem safe_whileTested (conds : List NodeId) (testLast : Bool)
    (level : plan.start.innerLevel id = n + if plan.start.entersScope id then 1 else 0) :
    Safe (em.whileTested id conds body testLast ⟨sc, .repeatLoop⟩ ⟨sc, .continueLoop⟩
      ⟨sc, .breakOut⟩) e (Fitting plan (fr.busier id) n) := by
  have breakLacks := (owns.free .breakOut rfl).2
  have continueLacks := (owns.free .continueLoop rfl).2
  have repeatLacks := (owns.free .repeatLoop rfl).2
  generalize i : plan.start.innerLevel id = depth' at level
  have fits := owns.openLoop .repeatLoop rfl (by simp) (by simp) depth'
  have continueBehind := lacks_openedAs continueLacks .breakOut depth' (by simp)
  have repeatBehind := lacks_openedAs (lacks_openedAs repeatLacks .breakOut depth' (by simp))
    .continueLoop depth' (by simp)
  refine Safe.bind_ok rfl ?_
  rw [fits.settled.peels.entersScope_eq]
  refine Safe.bind (safe_enterLoop fits level conds) fun _ e1 fits => ?_
  have skips : Safe (EmitM.addIf (!testLast) (.jump ⟨sc, .continueLoop⟩)) e1
      fun _ e' => e'.Fits plan ((((fr.claimed id sc).opened ⟨sc, .breakOut⟩ depth').opened
        ⟨sc, .continueLoop⟩ depth').opened ⟨sc, .repeatLoop⟩ depth') depth' := by
    cases testLast with
    | true => exact Safe.pure fits
    | false => exact fits.safe_addJump (Ports.leads_opened_self.opened repeatBehind)
  refine Safe.bind skips fun _ e2 fits => ?_
  refine Safe.bind (fits.safe_place repeatBehind fun _ => rfl) fun _ e3 fits => ?_
  have hi := (((Frame.Inside.claimed fr id sc).opened breakLacks depth').opened continueBehind
    depth').headed repeatBehind depth'
  rw [LoopReady, i] at ready
  refine Safe.bind (care.stmt fits (ready _ hi List.mem_cons_self
    ((Ports.leads_opened_self.opened continueBehind).headed repeatBehind)
    (Ports.leads_opened_self.headed repeatBehind))) fun _ e4 fits => ?_
  have fits : e4.Fits plan ((((fr.claimed id sc).opened ⟨sc, .breakOut⟩ depth').headed
    ⟨sc, .repeatLoop⟩ depth').opened ⟨sc, .continueLoop⟩ depth') depth' := fits
  have continueLast := lacks_headedAs continueBehind .repeatLoop depth' (by simp)
  refine Safe.bind (fits.safe_placeJoin continueLast fun _ => rfl) fun _ e5 fits => ?_
  refine Safe.bind (safe_testAgain care fits id conds Ports.leads_headed_self) fun _ e6 fits => ?_
  have fits : e6.Fits plan (((fr.claimed id sc).headed ⟨sc, .repeatLoop⟩ depth').opened
    ⟨sc, .breakOut⟩ depth') depth' := fits
  have breakLast := lacks_headedAs breakLacks .repeatLoop depth' (by simp)
  refine Safe.bind (fits.safe_placeJoin breakLast fun _ => rfl) fun _ e7 fits => ?_
  exact (fits.beheaded repeatLacks).released.safe_exitIf level

omit owns ready in
theorem safe_whileLoop {testLast : Bool}
    (enters : Enters plan fr n id (.whileLoop conds body testLast) e) :
    Safe (em.whileLoop id conds body testLast) e fun _ e' =>
      e'.Fits plan (fr.busier id) n := by
  refine Safe.bind (enters.safe_label .repeatLoop) ?_
  rintro repeatLabel e1 ⟨sc, rfl, owns, enters⟩
  refine Safe.bind_ok (label_of_taken owns.taken .continueLoop) ?_
  refine Safe.bind_ok (label_of_taken owns.taken .breakOut) ?_
  have ready := enters.loopReady sc rfl body (by simp [Stmt.children])
  refine Safe.bind (safe_constantConds conds) ?_
  rintro hk e1 ⟨rfl, k⟩
  rcases hk with _ | _ | _
  · exact safe_whileTested care owns ready conds testLast enters.innerLevel_eq
  · exact safe_whileNever care owns ready testLast enters.innerLevel_eq
  · refine safe_whileAlways care owns ready ?_
    -- conditions that are constants declare nothing, so that the loop enters no scope
    have hs := enters.fits.settled
    have hp : plan.start.entersScope id = false := by
      rw [← hs.peels.entersScope_eq, Tree.entersScope, enters.found]
      refine List.any_eq_false.mpr fun cond mem => ?_
      have noStmt := hs.values cond (k rfl cond mem)
      have noStmt : e1.work.tree.stmt? cond = none := by
        rw [← Option.not_isSome_iff_eq_none, hs.peels.isSome_stmt?, noStmt]
        simp
      simp [noStmt]
    rw [enters.innerLevel_eq, hp]
    rfl

omit owns ready in
/-- The updates of a loop stand at its label for going on, which is a label to jump back to
there. -/
theorem safe_updates (fits : e.Fits plan fr n) {l : Label}
    (here : e.code.offset? l = some e.code.size) (spared : e.Spares l)
    (lacks : fr.ports.Lacks l) (ready : ∀ id ∈ ids, plan.Ready (fr.headed l n) n id) :
    Safe (em.each ids) e (Fitting plan fr n) := by
  cases arrives : e.code.reachable with
  | true =>
    refine (safe_each care (fits.headed arrives here spared lacks) ready).mono fun _ e1 fits => ?_
    exact fits.beheaded lacks
  | false => exact safe_each_idle care fits ids arrives

omit owns ready in
theorem safe_forLoop {init updates : List NodeId}
    (enters : Enters plan fr n id (.forLoop init conds updates body) e) :
    Safe (em.forLoop id init conds updates body) e fun _ e' =>
      e'.Fits plan (fr.busier id) n := by
  refine Safe.bind (enters.safe_label .test) ?_
  rintro testLabel e1 ⟨sc, rfl, owns, enters⟩
  refine Safe.bind_ok (label_of_taken owns.taken .continueLoop) ?_
  refine Safe.bind_ok (label_of_taken owns.taken .breakOut) ?_
  have ready := enters.loopReady sc rfl
  have level := enters.innerLevel_eq
  have enteredScope : plan.start.entersScope id = true := by
    rw [← enters.fits.settled.peels.entersScope_eq, Tree.entersScope, enters.found]
  rw [enteredScope] at level
  simp only [LoopReady] at ready
  generalize plan.start.innerLevel id = i at level ready
  have breakLacks := (owns.free .breakOut rfl).2
  have continueLacks := (owns.free .continueLoop rfl).2
  have testLacks := (owns.free .test rfl).2
  have continueBehind := lacks_openedAs continueLacks .breakOut i (by simp)
  have testBehind := lacks_openedAs (lacks_openedAs testLacks .breakOut i (by simp)) .continueLoop i (by simp)
  have outside := ((Frame.Inside.claimed fr id sc).opened breakLacks i).opened continueBehind i
  have breaks : (((fr.claimed id sc).opened ⟨sc, .breakOut⟩ i).opened
      ⟨sc, .continueLoop⟩ i).ports.Leads ⟨sc, .breakOut⟩ i :=
    Ports.leads_opened_self.opened continueBehind
  have fits := owns.openLoop .test rfl (by simp) (by simp) i
  refine Safe.bind (m := EmitM.addIf true .enter) (fits.safe_enterIf level) fun _ e2 fits => ?_
  refine Safe.bind (safe_each care fits fun c mem => ready c (by simp [Stmt.children, mem]) _
    (outside.opened testBehind i) List.mem_cons_self (breaks.opened testBehind)
    (Ports.leads_opened_self.opened testBehind)) fun _ e3 fits => ?_
  refine Safe.bind (fits.safe_place testBehind fun _ => rfl) fun _ e4 fits => ?_
  refine Safe.bind (safe_condsOrJump care fits id (breaks.headed testBehind) conds) fun _ e5 fits => ?_
  refine Safe.bind (care.stmt fits (ready body (by simp [Stmt.children]) _
    (outside.headed testBehind i) List.mem_cons_self (breaks.headed testBehind)
    (Ports.leads_opened_self.headed testBehind))) fun _ e6 fits => ?_
  have fits : e6.Fits plan ((((fr.claimed id sc).opened ⟨sc, .breakOut⟩ i).headed
    ⟨sc, .test⟩ i).opened ⟨sc, .continueLoop⟩ i) i := fits
  have testHere := lacks_openedAs testLacks .breakOut i (by simp)
  have continueHere := lacks_headedAs continueBehind .test i (by simp)
  refine Safe.bind (fits.safe_placeJoin_here continueHere fun _ => rfl) ?_
  rintro ⟨⟩ e7 ⟨fits, here, spared⟩
  have hi := (((Frame.Inside.claimed fr id sc).opened breakLacks i).headed testHere
    i).headed continueHere i
  refine Safe.bind (safe_updates care fits here spared continueHere fun c mem => ready c
    (by simp [Stmt.children, mem]) _ hi List.mem_cons_self
    ((Ports.leads_opened_self.headed testHere).headed continueHere) Ports.leads_headed_self) ?_
  rintro ⟨⟩ e8 fits
  refine Safe.bind (fits.safe_jumpIfReachable Ports.leads_headed_self) fun _ e9 fits => ?_
  have fits : e9.Fits plan (((fr.claimed id sc).headed ⟨sc, .test⟩ i).opened
    ⟨sc, .breakOut⟩ i) i := fits
  have breakLast := lacks_headedAs breakLacks .test i (by simp)
  refine Safe.bind (fits.safe_placeJoin breakLast fun _ => rfl) fun _ e10 fits => ?_
  exact (fits.beheaded testLacks).released.safe_exitIf level

end Loops

end Emission

end TreeCompiler
