import TreeCompiler.Proofs.StatementSafety

/-!
# Safe emission of switches, jumps and all statements

The arms of a switch own numbered labels, all of which are open from the comparisons on; each is
placed where its body starts. A jump leaves as many scopes as lie between it and its target. With
this, the emission of every statement is safe, however deep the tree.
-/

namespace TreeCompiler

open Step

variable {id : NodeId} {arms : List NodeId}

namespace Frame

/-- The frame with the labels of the arms of a switch, from the arm at `index` on. -/
def openedArms (fr : Frame) (sc : UInt32) (level : Nat) : Nat → Nat → Frame
  | _, 0 => fr
  | i, count + 1 =>
    (fr.openedArms sc level (i + 1) count).opened ⟨sc, .switchCase i⟩ level

variable {fr outer : Frame} {sc : UInt32} {level i count : Nat}

theorem lacks_openedArms {l : Label} (x : ∀ number, l = ⟨sc, .switchCase number⟩ →
    number < i) (lacks : fr.ports.Lacks l) :
    (fr.openedArms sc level i count).ports.Lacks l := by
  induction count generalizing i with
  | zero => exact lacks
  | succ count ih =>
    refine (Ports.lacks_opened ?_).mpr (ih fun number eq => ?_)
    · intro eq
      exact Nat.lt_irrefl _ (x i eq)
    · exact Nat.lt_succ_of_lt (x number eq)

/-- The labels of arms lack in the frame around their switch. -/
def LacksArms (fr : Frame) (sc : UInt32) : Prop :=
  ∀ number, fr.ports.Lacks ⟨sc, .switchCase number⟩

theorem lacks_openedArms_succ (free : fr.LacksArms sc) :
    (fr.openedArms sc level (i + 1) count).ports.Lacks ⟨sc, .switchCase i⟩ := by
  refine lacks_openedArms (fun number eq => ?_) (free i)
  have he : i = number := by simpa using eq
  omega

theorem inside_openedArms (hi : outer.Inside id fr)
    (free : fr.LacksArms sc) (level i count : Nat) :
    outer.Inside id (fr.openedArms sc level i count) := by
  induction count generalizing i with
  | zero => exact hi
  | succ count ih => exact (ih (i + 1)).opened (lacks_openedArms_succ free) level

theorem leads_openedArms {l : Label} {got : Nat} (hl : fr.ports.Leads l got)
    (free : fr.LacksArms sc) : (fr.openedArms sc level i count).ports.Leads l got := by
  induction count generalizing i with
  | zero => exact hl
  | succ count ih => exact ih.opened (lacks_openedArms_succ free)

theorem leads_openedArms_self {number : Nat} (free : fr.LacksArms sc) (fst : i ≤ number)
    (last : number < i + count) :
    (fr.openedArms sc level i count).ports.Leads ⟨sc, .switchCase number⟩ level := by
  induction count generalizing i with
  | zero => omega
  | succ count ih =>
    by_cases eq : number = i
    · rw [eq]
      exact Ports.leads_opened_self
    · exact (ih (by omega) (by omega)).opened (lacks_openedArms_succ free)

@[simp] theorem scopes_openedArms : (fr.openedArms sc level i count).scopes = fr.scopes := by
  induction count generalizing i with
  | zero => rfl
  | succ count ih => exact ih

@[simp] theorem busy_openedArms : (fr.openedArms sc level i count).busy = fr.busy := by
  induction count generalizing i with
  | zero => rfl
  | succ count ih => exact ih

end Frame

namespace Emission

open EmitM

variable {plan : Plan} {fr : Frame} {n : Nat} {e : Emission}

theorem Fits.openArms {sc : UInt32} (fits : e.Fits plan fr n)
    (busy : id ∈ fr.busy) (taken : (e.work.tree.facts id).labelScope = some sc)
    (unplaced : ∀ number, e.code.offset? ⟨sc, .switchCase number⟩ = none)
    (free : fr.LacksArms sc) (level i count : Nat) :
    e.Fits plan (fr.openedArms sc level i count) n := by
  induction count generalizing i with
  | zero => exact fits
  | succ count ih =>
    refine (ih (i + 1)).openOwn ?_ taken rfl (unplaced i) (Frame.lacks_openedArms_succ free) level
    rwa [Frame.busy_openedArms]

/-- Arms with the labels of a switch, numbered in order. -/
def NumberedArms (sc : UInt32) : Nat → List Emitter.Arm → Prop
  | _, [] => True
  | i, arm :: rest => arm.label = ⟨sc, .switchCase i⟩ ∧ NumberedArms sc (i + 1) rest

/-- An arm of a switch as it stands in the tree. -/
def IsArm (plan : Plan) (arms : List NodeId) (arm : Emitter.Arm) : Prop :=
  arm.id ∈ arms ∧ ∃ tree vals, plan.start.Peels tree ∧ tree.stmt? arm.id = some (.arm vals arm.body)

theorem safe_armTests {v : Operand} {tgt : Label} (fits : e.Fits plan fr n)
    (hb : v.Below fr.floor) (hl : fr.ports.Leads tgt n) (ids : List NodeId) :
    Safe (Emitter.armTests v tgt ids) e (Fitting plan fr n) := by
  induction ids generalizing e with
  | nil => exact Safe.pure fits
  | cons id rest ih =>
    refine Safe.bind_ok rfl ?_
    cases (e.work.tree.facts id).constant with
    | none => exact Safe.throw (by simp)
    | some k =>
      refine Safe.bind (fits.safe_add rfl ?_ ?_ (by simp [Op.written?])) fun _ e1 fits => ih fits
      · intro l aims
        cases aims
        exact hl
      · intro arg mem
        rcases List.mem_cons.mp mem with rfl | mem
        · exact hb
        · rw [List.mem_singleton.mp mem]
          exact Operand.below_constant k _

theorem safe_switchTests {sc : UInt32} {v : Operand} {default : Option Label}
    {i : Nat} (fits : e.Fits plan fr n) (owned : (id, sc) ∈ fr.scopes)
    (hb : v.Below fr.floor) (hl : ∀ number, i ≤ number → number < i + arms.length →
      fr.ports.Leads ⟨sc, .switchCase number⟩ n)
    (hk : ∀ l, default = some l → fr.ports.Leads l n) :
    Safe (Emitter.switchTests id v default i arms) e fun res e' =>
      e'.Fits plan fr n ∧ (∀ l, res.1 = some l → fr.ports.Leads l n) ∧
        res.2.length = arms.length ∧ NumberedArms sc i res.2 ∧
        ∀ arm ∈ res.2, IsArm plan arms arm := by
  induction arms generalizing e i default with
  | nil => exact Safe.pure ⟨fits, hk, rfl, trivial, by simp⟩
  | cons armId rest ih =>
    refine Safe.bind_ok rfl ?_
    split
    · rename_i vals body hf
      have here := hl i (Nat.le_refl _) (by simp)
      have peels := fits.settled.peels
      refine Safe.bind_ok (label_of_taken (fits.owned id sc owned) (.switchCase i)) ?_
      refine Safe.bind (safe_armTests fits hb here vals) fun _ e1 fits => ?_
      refine Safe.bind (ih fits (fun number fst last => ?_) fun l chosen => ?_) ?_
      · exact hl number (by omega) (by simp only [List.length_cons]; omega)
      · split at chosen
        · rw [← Option.some.inj chosen]
          exact here
        · exact hk l chosen
      · intro res e2 done
        obtain ⟨fits, hk, length, numbered, isArm⟩ := done
        refine Safe.pure ⟨fits, hk, by simp [length], ⟨rfl, numbered⟩, ?_⟩
        intro arm mem
        rcases List.mem_cons.mp mem with rfl | mem
        · exact ⟨List.mem_cons_self, _, vals, peels, hf⟩
        · obtain ⟨hi, hs⟩ := isArm arm mem
          exact ⟨List.mem_cons_of_mem _ hi, hs⟩
    · exact Safe.throw (by simp)

theorem Enters.ready_arm {v : NodeId} {sc : UInt32} {i : Frame}
    (enters : Enters plan fr n id (.switch v arms) e) (hi : fr.Inside id i)
    (owned : (id, sc) ∈ i.scopes)
    (breaks : i.ports.Leads ⟨sc, .breakOut⟩ (plan.start.innerLevel id)) {arm : Emitter.Arm}
    (isArm : IsArm plan arms arm) : plan.Ready i (plan.start.innerLevel id) arm.body := by
  obtain ⟨mem, tree, vals, peels, hf⟩ := isArm
  have offers : plan.Offers id (.switch v arms) i := by
    intro kind offered _
    cases kind with
    | breakOut => exact ⟨sc, owned, breaks⟩
    | continueLoop => simp [Stmt.offers, JumpKind.accepts, Stmt.isLoop] at offered
  have hs : (plan.start.stmt? arm.id).isSome := by
    rw [← peels.isSome_stmt?, hf]
    rfl
  obtain ⟨seats, level⟩ := enters.ready hi offers rfl arm.id (by simp [Stmt.children, mem]) hs
  have hp : plan.start.entersScope arm.id = false := by
    rw [← peels.entersScope_eq, Tree.entersScope, hf]
  have eq : plan.start.innerLevel arm.id = plan.start.innerLevel id := by
    rw [level, Tree.innerLevel, hp]
    rfl
  rw [← eq]
  exact seats.ready (.refl i arm.id) (offers_of_plain (fun kind => by cases kind <;> rfl) _) peels hf
    rfl (by simp [Stmt.children])

section Statements

variable {em : Emitter} (care : em.Careful plan)

include care

theorem safe_armBodies {sc : UInt32} {i : Nat} {arms : List Emitter.Arm} {breakLabel : Label}
    (free : fr.LacksArms sc) (fits : e.Fits plan (fr.openedArms sc n i arms.length) n)
    (numbered : NumberedArms sc i arms) (breaks : fr.ports.Leads breakLabel n)
    (ready : ∀ arm ∈ arms, ∀ i count, plan.Ready (fr.openedArms sc n i count) n arm.body) :
    Safe (em.armBodies breakLabel arms) e (Fitting plan fr n) := by
  induction arms generalizing e i with
  | nil => exact Safe.pure fits
  | cons arm rest ih =>
    obtain ⟨eq, numbered⟩ := numbered
    have hp : Safe (EmitM.placeJoin arm.label) e fun _ e' =>
        e'.Fits plan (fr.openedArms sc n (i + 1) rest.length) n := by
      rw [eq]
      exact fits.safe_placeJoin (Frame.lacks_openedArms_succ free) fun _ => rfl
    refine Safe.bind hp fun _ e1 fits => ?_
    refine Safe.bind_ok rfl ?_
    refine Safe.bind (fits.safe_setReachable arm.id _) fun _ e2 fits => ?_
    refine Safe.bind (care.stmt fits (ready arm (by simp) _ _)) fun _ e3 fits => ?_
    refine Safe.bind (fits.safe_jumpIfReachable (Frame.leads_openedArms breaks free)) fun _ e4 fits => ?_
    refine Safe.bind (fits.safe_setStage arm.id) fun _ e5 fits => ?_
    exact ih fits numbered fun x mem => ready x (by simp [mem])

theorem safe_switch {v : NodeId} (enters : Enters plan fr n id (.switch v arms) e) :
    Safe (em.switch id v arms) e (Fitting plan (fr.busier id) n) := by
  refine Safe.bind (enters.safe_label .breakOut) ?_
  intro l e1 taken
  obtain ⟨sc, rfl, ⟨fits, taken, free⟩, enters⟩ := taken
  have level : plan.start.innerLevel id = n := by
    rw [enters.innerLevel_eq, ← fits.settled.peels.entersScope_eq, Tree.entersScope, enters.found]
    rfl
  obtain ⟨breakFree, breakLacks⟩ := free .breakOut rfl
  have busy : id ∈ (fr.claimed id sc).busy := List.mem_cons_self
  have fits := fits.openOwn busy taken rfl breakFree breakLacks n
  have lacksArms : ((fr.claimed id sc).opened ⟨sc, .breakOut⟩ n).LacksArms sc := by
    intro number
    exact lacks_openedAs (free (.switchCase number) rfl).2 .breakOut n (by simp)
  have fits := fits.openArms busy taken
    (fun number => (free (.switchCase number) rfl).1) lacksArms n 0 arms.length
  refine Safe.bind (care.expr fits) ?_
  intro arg e2 gives
  obtain ⟨floor, le, fits, hb⟩ := gives
  have owned : ∀ i count, (id, sc) ∈ (((fr.claimed id sc).opened ⟨sc, .breakOut⟩
      n).openedArms sc n i count).scopes := by
    intro i count
    rw [Frame.scopes_openedArms]
    exact List.mem_cons_self
  refine Safe.bind (safe_switchTests fits (owned 0 arms.length) hb ?_ (by simp)) ?_
  · intro number fst last
    exact Frame.leads_openedArms_self lacksArms fst last
  intro res e3 tested
  obtain ⟨default, hp⟩ := res
  obtain ⟨fits, hk, length, numbered, isArm⟩ := tested
  have fits := fits.lowered le
  have breaks : ((fr.claimed id sc).opened ⟨sc, .breakOut⟩ n).ports.Leads
      ⟨sc, .breakOut⟩ n := Ports.leads_opened_self
  have goes : (((fr.claimed id sc).opened ⟨sc, .breakOut⟩ n).openedArms sc n 0
      arms.length).ports.Leads (default.getD ⟨sc, .breakOut⟩) n := by
    cases default with
    | some l => exact hk l rfl
    | none => exact Frame.leads_openedArms breaks lacksArms
  refine Safe.bind (fits.safe_addJump goes) fun _ e4 fits => ?_
  rw [← length] at fits
  refine Safe.bind (safe_armBodies care lacksArms fits numbered breaks ?_) fun _ e5 fits => ?_
  · intro arm mem i count
    have hi := Frame.inside_openedArms
      ((Frame.Inside.claimed fr id sc).opened breakLacks n) lacksArms n i count
    have ready := enters.ready_arm hi (owned i count)
      (by rw [level]; exact Frame.leads_openedArms breaks lacksArms) (isArm arm mem)
    rwa [level] at ready
  · refine (fits.safe_placeJoin breakLacks fun _ => rfl).mono fun _ e6 fits => ?_
    exact fits.released

/-! ### The other statements -/

theorem safe_varDecl (fits : e.Fits plan fr n) (id ty : NodeId) (init : Option NodeId) :
    Safe (em.varDecl id ty init) e (Fitting plan fr n) := by
  refine Safe.bind (fits.safe_declare id) ?_
  intro reg e1 hd
  obtain ⟨floor1, le1, fits, hb⟩ := hd
  refine Safe.bind (safe_addDeclaration fits ty hb) fun _ e2 fits => ?_
  cases init with
  | none => exact Safe.pure (fits.lowered le1)
  | some init =>
    refine Safe.bind (care.expr fits) ?_
    intro source e3 gives
    obtain ⟨floor2, le2, fits, sourceBelow⟩ := gives
    have fits : e3.Fits plan (fr.raised floor2) n := fits
    have written : reg.index < floor2 := Nat.lt_of_lt_of_le hb le2
    refine (fits.safe_move sourceBelow written).mono fun _ e4 fits => ?_
    exact fits.lowered (Nat.le_trans le1 le2)

theorem safe_assign (fits : e.Fits plan fr n) (tgt v : NodeId) :
    Safe (em.assign tgt v) e (Fitting plan fr n) := by
  refine Safe.bind (care.expr fits) ?_
  intro arg e1 gives
  obtain ⟨floor1, le1, fits, hb⟩ := gives
  cases arg with
  | constant _ => exact Safe.throw (by simp)
  | register reg =>
    refine Safe.bind (care.expr fits) ?_
    intro source e2 gives
    obtain ⟨floor2, le2, fits, sourceBelow⟩ := gives
    have fits : e2.Fits plan (fr.raised floor2) n := fits
    have written : reg.index < floor2 := Nat.lt_of_lt_of_le (hb reg rfl) le2
    refine (fits.safe_move sourceBelow written).mono fun _ e3 fits => ?_
    exact fits.lowered (Nat.le_trans le1 le2)

theorem safe_returnValues (fits : e.Fits plan fr n) (warn : Bool) (id : NodeId)
    (vals : List NodeId) :
    Safe (em.stmtBody warn id (.returnValues vals)) e (Fitting plan fr n) := by
  cases vals with
  | nil => exact fits.safe_addPlain rfl rfl (by simp [Op.operands]) (by simp [Op.written?])
  | cons v rest =>
    refine Safe.bind (safe_emitAll care.expr fits (v :: rest)) ?_
    intro operands e1 given
    obtain ⟨floor, le, fits, hb⟩ := given
    have rets : Safe (EmitM.add (.returnValues operands)) e1 fun _ e' =>
        e'.Fits plan (fr.raised floor) n :=
      fits.safe_addPlain rfl rfl hb (by simp [Op.written?])
    exact rets.mono fun _ e2 fits => fits.lowered le

omit care in
theorem safe_addTimes {times : Nat} (fits : e.Fits plan fr (n + times)) :
    Safe (addTimes times .exit) e (Fitting plan fr n) := by
  induction times generalizing e with
  | zero => exact Safe.pure fits
  | succ times ih =>
    have exits : Safe (EmitM.add .exit) e (Fitting plan fr (n + times)) :=
      fits.safe_add rfl (by simp [Op.target?]) (by simp [Op.operands]) (by simp [Op.written?])
    exact Safe.bind exits fun _ e1 fits => ih fits

omit care in
theorem safe_jump {stmt : Stmt} (enters : Enters plan fr n id stmt e) :
    Safe (Emitter.jump id) e (Fitting plan fr n) := by
  have fits := enters.fits
  refine Safe.bind_ok rfl ?_
  cases bound : (e.work.tree.facts id).jump with
  | none => exact Safe.throw (by simp)
  | some jump =>
    obtain ⟨hosts, binds, -, used⟩ := fits.settled.jumps id jump bound
    obtain ⟨above, offers, level⟩ := plan.linked.binds_target hosts.isBelow binds
    have broken : jump.kind = .breakOut → plan.broken jump.target = true := by
      intro kind
      rw [← fits.broken]
      exact used kind
    obtain ⟨sc, owned, hl⟩ := enters.seats.leads jump.target above jump.kind offers broken
    have fits : e.Fits plan fr (plan.start.innerLevel jump.target + jump.depth) := by
      rw [← level, ← enters.level]
      exact fits
    refine Safe.bind_ok (label_of_taken (fits.owned _ _ owned) _) ?_
    refine Safe.bind (safe_addTimes fits) fun _ e1 fits => ?_
    -- nothing is reached behind the jump, so that any number of scopes may be open there
    have stopped : (e1.code.add (.jump ⟨sc, jumpRole jump.kind⟩)).reachable = false := by
      unfold Buffer.add
      split <;> simp_all [Op.isTerminal]
    have t : (e1.withCode (e1.code.add (.jump ⟨sc, jumpRole jump.kind⟩))).Fits plan fr
      (plan.start.innerLevel jump.target) := fits.safe_addJump hl
    exact Safe.of_ok (a := ()) (add_ok.mpr rfl) (t.anywhere stopped n)

theorem safe_labeled {body : NodeId} {l : String} (warn : Bool)
    (enters : Enters plan fr n id (.labeled l body) e) :
    Safe (em.stmtBody warn id (.labeled l body)) e fun _ e' =>
      e'.Fits plan (fr.busier id) n := by
  have fits := enters.fits
  have level : plan.start.innerLevel id = n := by
    rw [enters.innerLevel_eq, ← fits.settled.peels.entersScope_eq, Tree.entersScope, enters.found]
    rfl
  cases broken : plan.broken id with
  | true =>
    have used := (fits.broken id).trans broken
    obtain ⟨sc, taken⟩ := Option.isSome_iff_exists.mp (fits.settled.used id used)
    obtain ⟨fits, taken, free⟩ := enters.owns taken
    obtain ⟨breakFree, breakLacks⟩ := free .breakOut rfl
    have fits := fits.openOwn List.mem_cons_self taken rfl breakFree breakLacks n
    have hi := (Frame.Inside.claimed fr id sc).opened breakLacks n
    have ready := enters.ready hi ?_ rfl body (by simp [Stmt.children])
    · rw [level] at ready
      refine Safe.bind (care.stmt fits ready) fun _ e1 fits => ?_
      refine Safe.bind_ok rfl ?_
      have owned := fits.owned id sc List.mem_cons_self
      rw [fits.broken id, broken]
      refine Safe.bind_ok (label_of_taken owned .breakOut) ?_
      exact (fits.safe_placeJoin breakLacks fun _ => rfl).mono fun _ e2 fits => fits.released
    · intro kind offered _
      cases kind with
      | breakOut =>
        refine ⟨sc, List.mem_cons_self, ?_⟩
        rw [level]
        exact Ports.leads_opened_self
      | continueLoop => simp [Stmt.offers] at offered
  | false =>
    have ready := enters.ready (.busier fr id) ?_ rfl body (by simp [Stmt.children])
    · rw [level] at ready
      refine Safe.bind (care.stmt (fits.busier id) ready) fun _ e1 fits => ?_
      refine Safe.bind_ok rfl ?_
      rw [fits.broken id, broken]
      exact Safe.pure fits
    · intro kind offered used
      cases kind with
      | breakOut => simp [broken] at used
      | continueLoop => simp [Stmt.offers] at offered

theorem safe_stmtBody {stmt : Stmt} (warn : Bool) (enters : Enters plan fr n id stmt e) :
    Safe (em.stmtBody warn id stmt) e (Fitting plan (fr.busier id) n) := by
  have fits := enters.fits.busier id
  cases stmt with
  | block stmts => exact safe_block care warn enters
  | evaluate expr => exact Safe.bind (care.expr fits) fun _ _ gives => Safe.pure gives.fits
  | varDecl ty name init => exact safe_varDecl care fits id ty init
  | assign tgt v => exact safe_assign care fits tgt v
  | typedef name ty => exact Safe.pure fits
  | ifElse conds thenBranch els => exact safe_ifElse care enters
  | whileLoop conds body testLast => exact safe_whileLoop care enters
  | forLoop init conds updates body => exact safe_forLoop care enters
  | switch v arms => exact safe_switch care enters
  | labeled l body => exact safe_labeled care warn enters
  | breakOut l => exact (safe_jump enters).mono fun _ _ fits => fits.busier id
  | continueLoop l => exact (safe_jump enters).mono fun _ _ fits => fits.busier id
  | returnValues vals => exact safe_returnValues care fits warn id vals
  | container _ _ => exact Safe.throw (by simp)
  | method _ _ _ _ => exact Safe.throw (by simp)
  | arm _ _ => exact Safe.throw (by simp)
  | condDecl _ _ _ => exact Safe.throw (by simp)

omit care in
/-- A statement is noted as emitted. -/
theorem Fits.safe_leave (fits : e.Fits plan (fr.busier id) n) (hi : e.work.tree.Has id) :
    Safe (EmitM.setStage id .emitted) e (Fitting plan fr n) := by
  have t : (e.withTree (e.work.tree.setStage id .emitted)).Fits plan (fr.busier id) n :=
    fits.safe_setStage id
  have emitted : (e.work.tree.setStage id .emitted).stage id = .emitted :=
    congrArg Facts.stage (e.work.tree.facts_modify_same hi _)
  exact Safe.of_ok (a := ()) (setStage_ok.mpr rfl) (t.idle emitted)

theorem safe_stmtOnce (warn : Bool) (fits : e.Fits plan fr n) (ready : plan.Ready fr n id) :
    Safe (em.stmtOnce warn id) e (Fitting plan fr n) := by
  refine Safe.bind_ok rfl ?_
  cases e.code.reachable with
  | false => exact fits.safe_setReachable id false
  | true =>
    refine Safe.bind_ok rfl ?_
    dsimp only
    split
    · exact Safe.throw (by simp)
    · rename_i stage
      rw [not_not] at stage
      have t : (e.withTree (e.work.tree.modifyFacts id (noteReachable true))).Fits plan fr n :=
        fits.safe_setReachable id true
      refine Safe.bind_ok (a := ()) (setReachable_ok.mpr rfl) ?_
      cases hf : e.work.tree.stmt? id with
      | none => exact Safe.throw (by simp)
      | some stmt =>
        have hi : e.work.tree.Has id := e.work.tree.has_of_stmt hf
        have hs : (plan.start.stmt? id).isSome := by
          rw [← fits.settled.peels.isSome_stmt?, hf]
          rfl
        obtain ⟨seats, level⟩ := ready hs
        have enters : Enters plan fr n id stmt
            (e.withTree (e.work.tree.modifyFacts id (noteReachable true))) := by
          refine ⟨t, seats, level, ?_, ?_⟩
          · rw [← hf]
            exact e.work.tree.stmt?_modify id id _
          · have eq : (e.work.tree.modifyFacts id (noteReachable true)).stage id = e.work.tree.stage id :=
              e.work.tree.facts_modify_of Facts.stage (by intro _; rfl) id id
            intro emitted
            rw [withTree, eq, stage] at emitted
            simp at emitted
        have orig : plan.start.Has id := (fits.settled.peels.has_iff id).mp hi
        refine Safe.bind (safe_stmtBody care warn enters) fun _ e1 fits => ?_
        exact fits.safe_leave ((fits.settled.peels.has_iff id).mpr orig)

omit care in
/-- Statements are emitted safely however deep the tree. -/
theorem careful_emitterWithin (warn : Bool) (limit : Nat) :
    (emitterWithin warn limit).Careful plan := by
  induction limit with
  | zero =>
    refine ⟨safe_emitExprWithin 0, safe_emitBranchWithin 0, ?_, ?_⟩
    · intro id fr n e _ _
      exact Safe.throw (by simp)
    · intro id fr n e _ _
      exact Safe.throw (by simp)
  | succ limit ih =>
    refine ⟨safe_emitExprWithin _, safe_emitBranchWithin _, ?_, ?_⟩
    · intro id fr n e fits ready
      exact safe_stmtOnce ih warn fits ready
    · intro id fr n e fits stopped
      refine Safe.bind_ok rfl ?_
      rw [stopped]
      exact Safe.of_ok (a := ()) (setReachable_ok.mpr rfl) ⟨fits.safe_setReachable id false, stopped⟩

end Statements

end Emission

end TreeCompiler
