import TreeCompiler.Proofs.ControlProgress

/-!
# Progress of emission as a whole

Switches, jumps and the statements that only compute something are emitted without an internal
error, and with them every statement of a valid unit.
-/

namespace TreeCompiler

open Step Emission EmitM

variable {v : NodeId} {cases : List NodeId} {stmt : Stmt}

namespace Emission.Emitter

/-- Emits the body of an arm, which ends behind the switch. -/
def armBody (emitter : Emitter) (breakLabel : Label) (arm : Arm) : EmitM Unit := do
  placeJoin arm.label
  setReachable arm.id (← reachable)
  emitter.stmt arm.body
  jumpIfReachable breakLabel
  setStage arm.id .emitted

theorem armBodies_cons (emitter : Emitter) (breakLabel : Label) (arm : Arm) (rest : List Arm) :
    emitter.armBodies breakLabel (arm :: rest) =
      (emitter.armBody breakLabel arm >>= fun _ => emitter.armBodies breakLabel rest) := by
  simp only [armBodies, armBody, bind_assoc]

end Emission.Emitter

namespace Outset

variable {o : Outset} {w : Work} {effect : Effect} {e e' : Emission} {id c node : NodeId}
 {limit : Nat} {rest : List NodeId} {emitter : Emitter}
  {ren : NodeId → NodeId} {taken : UInt32}

/-- A statement is sent. Jumps go to it no longer. -/
theorem Tracks.send (trk : o.Tracks w e) (em : o.Emittable w)
    (hb : o.tree.Below o.root id) {around : List NodeId} (aimed : Aimed (id :: around) e) :
    Proceeds (o.Moves w (.expr o.tree id)) (EmitM.setStage id .emitted) e fun _ e' =>
      Aimed around e' := by
  have hs : Proceeds (o.Moves w (.expr o.tree id)) (EmitM.setStage id .emitted) e _ :=
    trk.setStage .root
  refine hs.answering ?_
  rintro _ _ sent rfl
  refine (sent.aimed aimed fun _ _ aims => aims.elim).sent ?_
  have now : (e.withTree (e.work.tree.setStage id .emitted)).work.tree.stage id = .emitted :=
    e.work.tree.stage_setStage_same (trk.has em hb) .emitted
  simp [now]

/-! ### Switches -/

variable (o) in
/-- An arm of a switch as emission finds it, with a label of the switch. -/
structure IsArm (id : NodeId) (taken : UInt32) (arm : Emitter.Arm) : Prop where
  seat : o.Seat id .arm arm.id arm.id
  found : ∃ vals, o.tree.stmt? arm.id = some (.arm vals arm.body)
  body : o.Seat arm.id .statement arm.body arm.body
  owned : arm.label.scope = taken

theorem Tracks.armTests (trk : o.Tracks w e) {arg : Operand} {tgt : Label}
    (owned : tgt.scope = taken) {nodes : List NodeId}
    (hk : ∀ node ∈ nodes, (w.tree.facts node).constant.isSome) :
    Proceeds (o.Moves w (.code (some taken))) (Emitter.armTests arg tgt nodes) e
      fun _ _ => True := by
  induction nodes generalizing e with
  | nil => exact Proceeds.pure (.refl trk _) trivial
  | cons node nodes ih =>
    refine Proceeds.bind_read rfl ?_
    obtain ⟨v, isKnown⟩ := Option.isSome_iff_exists.mp (hk node List.mem_cons_self)
    rw [trk.constant, isKnown]
    refine Proceeds.bind (trk.add (fun l aimed => ?_) False.elim) fun _ e₁ hm _ => ?_
    · cases aimed
      exact .inr (by simp [Effect.code, owned])
    · exact ih hm.tracks fun x mem => hk x (List.mem_cons_of_mem node mem)

theorem Emittable.proceeds_switchTests (em : o.Emittable w) (hb : o.tree.Below o.root id)
    {arg : Operand} {default : Option Label} (isDefault : ∀ l ∈ default, l.scope = taken)
    {i : Nat} {arms : List NodeId} (seats : ∀ arm ∈ arms, o.Seat id .arm arm arm)
    (trk : o.Tracks w e) (owned : (e.work.tree.facts id).labelScope = some taken) :
    Proceeds (o.Moves w (.code (some taken))) (Emitter.switchTests id arg default i arms) e
      fun res _ => (∀ l ∈ res.1, l.scope = taken) ∧
        res.2.map Emitter.Arm.id = arms ∧ ∀ arm ∈ res.2, o.IsArm id taken arm := by
  induction arms generalizing e default i with
  | nil => exact Proceeds.pure (.refl trk _) ⟨isDefault, rfl, by simp⟩
  | cons arm arms ih =>
    have seat := seats arm List.mem_cons_self
    have belowArm := hb.child seat.member
    obtain ⟨-, stmt, hf, isArm⟩ := seat.stmt (by decide)
    obtain ⟨ren, renamed, ps⟩ := em.stmt_seats belowArm hf
    cases stmt with
    | arm vals body =>
      have seatBody := ps .statement body (by simp [Stmt.slots])
      obtain ⟨eq, -⟩ := seatBody.stmt (by decide)
      refine Proceeds.bind_read rfl ?_
      rw [trk.stmt?, renamed]
      refine Proceeds.bind (trk.label (trk.has em hb) _) ?_
      rintro tgt e₁ labeled ⟨-, mine, -⟩
      have owns : tgt.scope = taken := by
        rw [labeled.scopes id taken owned] at mine
        exact (Option.some.inj mine).symm
      have hk : ∀ node ∈ vals.map ren, (w.tree.facts node).constant.isSome := by
        intro node mem
        obtain ⟨v, isValue, rfl⟩ := List.mem_map.mp mem
        have seatValue := ps .expression v (by simp [Stmt.slots, isValue])
        obtain ⟨x, hs, hp, -, k⟩ :=
          (em.holds belowArm).arm vals body hf v isValue
        rw [seatValue.strips.unique hs seatValue.plain hp]
        exact k
      refine Proceeds.bind (labeled.tracks.armTests owns hk) fun _ e₂ tested _ => ?_
      have isNext : ∀ l ∈ (if (vals.map ren).isEmpty then some tgt else default),
          l.scope = taken := by
        intro l
        split
        · rintro ⟨⟩
          exact owns
        · exact isDefault l
      refine Proceeds.bind (ih isNext (fun x mem => seats x (List.mem_cons_of_mem arm mem))
        tested.tracks (tested.scopes _ _ (labeled.scopes _ _ owned))) ?_
      rintro ⟨last, rest⟩ e₃ hm ⟨isLast, ids, areArms⟩
      refine Proceeds.pure (.refl hm.tracks _) ⟨isLast, by simp [ids], ?_⟩
      intro x mem
      rcases List.mem_cons.mp mem with rfl | mem
      · exact ⟨seat, ⟨vals, by rw [eq]; exact hf⟩, by simpa [eq] using seatBody, owns⟩
      · exact areArms x mem
    | _ => simp [Slot.admits, Stmt.isArm] at isArm

namespace Emits

variable (em : o.Emittable w) (emits : o.Emits w limit emitter) (small : id.index ≤ limit)

include em emits small

theorem armBody {arm : Emitter.Arm} {breakLabel : Label}
    (isSwitch : o.tree.stmt? id = some (.switch v cases)) (isArm : o.IsArm id taken arm)
    (isBreak : breakLabel.scope = taken) (ho : o.Open w id (some taken) (arm.id :: rest) e) :
    Proceeds (o.Moves w (.stmt o.tree arm.id)) (emitter.armBody breakLabel arm) e fun _ e' =>
      Aimed (id :: o.tree.ancestors id) e' := by
  obtain ⟨vals, hf⟩ := isArm.found
  have belowArm := ho.below.child isArm.seat.member
  have isBody := isArm.body.member
  have around : o.tree.ancestors arm.body = arm.id :: id :: o.tree.ancestors id := by
    rw [em.linked.ancestors_child belowArm isBody, em.linked.ancestors_child ho.below isArm.seat.member]
  have code : ∀ {e e'}, o.Moves w (.code (some taken)) e e' →
      o.Moves w (.stmt o.tree arm.id) e e' := fun hm => hm.within Effect.code_within_stmt
  refine Proceeds.bind_within (ho.tracks.placeJoin _) (fun _ => code) fun _ e₁ hm _ => ?_
  have ho := ho.later hm (fun _ _ _ _ hi => hi) fun _ _ aimed => aimed
  refine Proceeds.bind_read rfl ?_
  refine Proceeds.bind_within (ho.tracks.setReachable arm.id _) (fun _ => code) fun _ e₂ hm _ => ?_
  have ho := ho.later hm (fun _ _ _ _ hi => hi) fun _ _ aimed => aimed
  have covers : o.Covers e₂ arm.body := by
    refine em.covers_shown belowArm ?_ isArm.body (shows_nothing hf fun _ => rfl) registered_nil
    exact em.covers_shown ho.below ho.covers isArm.seat
      (shows_nothing isSwitch fun _ => rfl) registered_nil
  have due : o.Due w arm.body e₂ :=
    { below := belowArm.child isBody
      isStmt := (isArm.body.stmt (by decide)).2
      tracks := ho.tracks
      covers := fun _ => covers
      unsent := fun x hb =>
        ho.unsent arm.id List.mem_cons_self x ((Tree.Below.root.child isBody).trans hb)
      aimed := by
        rw [around]
        exact ho.aimed.mono (List.subset_cons_self arm.id _) }
  have lower := em.linked.upward id arm.id ho.below isArm.seat.member
  have lowest := em.linked.upward arm.id arm.body belowArm isBody
  refine Proceeds.bind_within (emits.stmt (by omega) due)
    (fun _ hm => hm.within (effect_within_stmt isBody)) fun _ e₃ hm sends => ?_
  have owned := hm.scopes id taken (ho.owned taken rfl)
  have aimed := sends.aimed
  rw [around] at aimed
  have jumps : Proceeds (o.Moves w (.code (some taken))) (EmitM.jumpIfReachable breakLabel) e₃ _ :=
    hm.tracks.jumpIfReachable (by simp [Effect.code, isBreak]) fun flows => flows
  refine Proceeds.bind_within jumps (fun _ => code) fun _ e₄ hm _ => ?_
  have aimed := hm.aimed aimed fun l _ aims =>
    ⟨id, by simp, hm.scopes id _ (by rw [owned]; exact aims)⟩
  exact (hm.tracks.send em belowArm aimed).mono
    (fun _ hm => hm.within (Effect.within_stmt fun _ hb => hb)) fun _ _ _ sent => sent

theorem armBodies {arms : List Emitter.Arm} {breakLabel : Label}
    (isSwitch : o.tree.stmt? id = some (.switch v cases)) (isBreak : breakLabel.scope = taken)
    (areArms : ∀ arm ∈ arms, o.IsArm id taken arm)
    (ho : o.Open w id (some taken) (arms.map Emitter.Arm.id) e) :
    Proceeds (o.Moves w (.stmt o.tree id)) (emitter.armBodies breakLabel arms) e fun _ e' =>
      o.Open w id (some taken) [] e' := by
  induction arms generalizing e with
  | nil => exact Proceeds.pure (.refl ho.tracks _) ho
  | cons arm arms ih =>
    have isArm := areArms arm List.mem_cons_self
    rw [Emitter.armBodies_cons]
    refine Proceeds.bind_within (emits.armBody em small isSwitch isArm isBreak ho)
      (fun _ hm => hm.within (Effect.within_stmt fun _ hb =>
        (Tree.Below.root.child isArm.seat.member).trans hb)) fun _ e₁ hm aimed => ?_
    exact ih (fun x mem => areArms x (List.mem_cons_of_mem arm mem))
      (ho.afterPart em hm (fun _ hb => hb) aimed)

theorem switch (he : o.Entered w id (.switch v cases) ren e) :
    Proceeds (o.Moves w (.stmt o.tree id)) (emitter.switch id (ren v) (cases.map ren)) e
      fun _ e' => Aimed (id :: o.tree.ancestors id) e' := by
  have hd : (v :: cases).Nodup := he.distinct em
  have seatValue := he.seats .expression v (by simp [Stmt.slots])
  have arms : ∀ arm ∈ cases, ren arm = arm ∧ o.Seat id .arm arm arm := by
    intro arm mem
    have seat := he.seats .arm arm (by simp [Stmt.slots, mem])
    obtain ⟨eq, -⟩ := seat.stmt (by decide)
    rw [eq] at seat
    exact ⟨eq, seat⟩
  have eq : cases.map ren = cases := by
    rw [List.map_congr_left fun arm mem => (arms arm mem).1, List.map_id']
  have ho : o.Open w id none cases e :=
    he.isOpen (fun _ mem => List.mem_cons_of_mem v mem) (List.nodup_cons.mp hd).2
  rw [eq]
  refine ho.bindLabel em .breakOut fun breakLabel e₁ ho _ _ _ _ => ?_
  have computable : o.Computable w (ren v) e₁ :=
    seatValue.computable ho.below ho.tracks (em.covers_shown ho.below ho.covers
      seatValue (shows_nothing he.found fun _ => rfl) registered_nil)
  have lower := seatValue.index_lt em.linked he.below
  refine ho.bindParts em (emits.expr (by omega) computable) ?_ (fun _ _ aims => aims.elim)
    fun arg e₂ ho _ _ => ?_
  · intro x hb
    exact ⟨v, seatValue.member, (List.nodup_cons.mp hd).1, (seatValue.strips.isBelow .root).trans hb⟩
  refine ho.bindCode (em.proceeds_switchTests ho.below (by simp)
    (fun arm mem => (arms arm mem).2) ho.tracks (ho.owned _ rfl)) ?_
  rintro ⟨default, hf⟩ e₃ ho _ ⟨isDefault, ids, areArms⟩
  refine ho.bindCode (ho.tracks.addJump ?_ fun flows => flows) fun _ e₄ ho _ _ => ?_
  · cases default with
    | none => rfl
    | some l => exact congrArg some (isDefault l rfl).symm
  rw [← ids] at ho
  refine Proceeds.bind (emits.armBodies em small he.found rfl areArms ho) fun _ e₅ _ ho => ?_
  exact ho.endCode (ho.tracks.placeJoin _)

theorem labeled {l : String} {body : NodeId} (warn : Bool)
    (he : o.Entered w id (.labeled l body) ren e) :
    Proceeds (o.Moves w (.stmt o.tree id)) (emitter.stmtBody warn id (.labeled l (ren body))) e
      fun _ e' => Aimed (id :: o.tree.ancestors id) e' := by
  obtain ⟨eq, seat, isBody⟩ := he.statement body (by simp [Stmt.slots])
  have ho : o.Open w id none [body] e :=
    he.isOpen (by simp [Stmt.children]) (List.nodup_singleton body)
  rw [eq]
  refine ho.bindStmt em emits small (effect_within_stmt seat.member) isBody
    (fun _ => em.covers_shown ho.below ho.covers seat
      (shows_nothing he.found fun _ => rfl) registered_nil) fun e₁ ho _ _ => ?_
  refine Proceeds.bind_read rfl ?_
  split
  · refine ho.bindLabel em .breakOut fun breakLabel e₂ ho _ _ _ _ => ?_
    exact ho.endCode (ho.tracks.placeJoin _)
  · exact Proceeds.pure (.refl ho.tracks _) ho.aimed

end Emits

/-! ### Jumps -/

theorem Tracks.addTimes (trk : o.Tracks w e) {op : Op} (hp : op.target? = none)
    (goes : op.isTerminal = false) (times : Nat) :
    Proceeds (o.Moves w effect) (Emission.addTimes times op) e fun _ _ => True := by
  induction times generalizing e with
  | zero => exact Proceeds.pure (.refl trk _) trivial
  | succ times ih => exact Proceeds.bind (trk.addPlain hp goes) fun _ _ hm _ => ih hm.tracks

/-- A jump goes to a statement around it. -/
theorem Emittable.proceeds_jump (em : o.Emittable w) (isJump : stmt.jump?.isSome)
    (he : o.Entered w id stmt ren e) : Proceeds (o.Moves w (.stmt o.tree id)) (Emitter.jump id) e
      fun _ e' => Aimed (id :: o.tree.ancestors id) e' := by
  have trk := he.tracks
  obtain ⟨jump, bound⟩ := Option.isSome_iff_exists.mp
    ((em.holds he.below).jump stmt he.found isJump)
  rw [← trk.fact Facts.jump (fun _ => rfl) id] at bound
  obtain ⟨-, binds, -, -⟩ := trk.settled.jumps id jump bound
  obtain ⟨above, -, -⟩ := em.linked.binds_target he.below binds
  have around : jump.target ∈ o.tree.ancestors id := Tree.ancestorsInMethod_subset above
  have hb := (em.linked.below_of_mem_ancestors he.below around).1
  refine Proceeds.bind_read rfl ?_
  rw [bound]
  have labels : Proceeds (o.Moves w (.code none)) (EmitM.label jump.target (jumpRole jump.kind)) e _ :=
    trk.label (trk.has em hb) _
  refine Proceeds.bind_within labels (fun _ hm => hm.within Effect.code_within_stmt) ?_
  rintro tgt e₁ hm ⟨-, owned, -⟩
  have exits : Proceeds (o.Moves w (.code none)) (Emission.addTimes jump.depth .exit) e₁ _ :=
    hm.tracks.addTimes rfl rfl jump.depth
  have aimed := hm.aimed he.aimed fun _ _ aims => by simp [Effect.code] at aims
  refine Proceeds.bind_within exits (fun _ hm => hm.within Effect.code_within_stmt) ?_
  intro _ e₂ hm _
  have aimed := hm.aimed aimed fun _ _ aims => by simp [Effect.code] at aims
  have owned := hm.scopes _ _ owned
  have jumps : Proceeds (o.Moves w (.code (some tgt.scope))) (EmitM.add (.jump tgt)) e₂ _ :=
    hm.tracks.addJump rfl fun flows => flows
  refine jumps.mono (fun _ hm => hm.within Effect.code_within_stmt) fun _ e₃ hm _ => ?_
  have aimed := hm.aimed aimed fun l _ aims =>
    ⟨jump.target, around, hm.scopes _ _ (by rw [owned]; exact aims)⟩
  exact aimed.mono (List.subset_cons_self id _)

/-! ### Statements that only compute something -/

namespace Emits

variable (em : o.Emittable w) (emits : o.Emits w limit emitter) (small : id.index ≤ limit)

include em emits small

/-- An expression that a statement holds. -/
theorem part (hf : o.tree.stmt? id = some stmt) (hb : o.tree.Below o.root id)
    (nothing : ∀ name, o.tree.declaredAbove name c stmt none = none)
    (seat : o.Seat id .expression c node) (trk : o.Tracks w e) (covers : o.Covers e id) :
    Proceeds (o.Moves w (.expr o.tree id)) (emitter.expr node) e fun arg _ =>
      ∀ v, arg = .constant v → (w.tree.facts node).constant = some v := by
  have lower := seat.index_lt em.linked hb
  have computable : o.Computable w node e := seat.computable hb trk
    (em.covers_shown hb covers seat (shows_nothing hf nothing) registered_nil)
  exact (emits.expr (by omega) computable).mono
    (fun _ hm => hm.within (Effect.expr_within_expr seat.under)) fun _ _ _ hk => hk

theorem varDecl {ty : NodeId} {name : String} {init : Option NodeId}
    (he : o.Entered w id (.varDecl ty name init) ren e) : Proceeds (o.Moves w (.expr o.tree id))
      (emitter.varDecl id (ren ty) (init.map ren)) e fun _ e' => o.Registered e' [id] := by
  have covers := he.covers he.reached
  refine Proceeds.bind (he.tracks.declare id) fun reg e₁ bound isBound => ?_
  have registered : o.Registered e₁ [id] := by
    intro decl mem _ _ _
    obtain rfl := List.mem_singleton.mp mem
    exact isBound.1
  refine Proceeds.bind (em.proceeds_addDeclaration he.below bound.tracks
    (he.seats .type ty (by simp [Stmt.slots])) reg) fun _ e₂ hd _ => ?_
  cases init with
  | none => exact Proceeds.pure (.refl hd.tracks _) (hd.registered registered)
  | some init =>
    refine Proceeds.bind (emits.part em small he.found he.below (fun _ => rfl)
      (he.seats .expression init (by simp [Stmt.slots])) hd.tracks
      (hd.covers (bound.covers covers))) fun _ e₃ computed _ => ?_
    exact (computed.tracks.addPlain rfl rfl).answering fun _ _ hm _ =>
      hm.registered (computed.registered (hd.registered registered))

theorem assign {tgt : NodeId} (he : o.Entered w id (.assign tgt v) ren e) :
    Proceeds (o.Moves w (.expr o.tree id)) (emitter.assign (ren tgt) (ren v)) e
      fun _ _ => True := by
  have seatTarget := he.seats .expression tgt (by simp [Stmt.slots])
  have seatValue := he.seats .expression v (by simp [Stmt.slots])
  have covers := he.covers he.reached
  obtain ⟨⟨name, isName⟩, decl, bound⟩ := (em.holds he.below).assign tgt v he.found
  have eq : ren tgt = tgt := by
    refine seatTarget.strips.unique (.self tgt) seatTarget.plain fun i isParen => ?_
    simp [isName] at isParen
  have varies : (w.tree.facts tgt).constant = none := by
    rcases (em.holds (he.below.child seatTarget.member)).name name isName with
      ⟨-, -, none, -⟩ | ⟨ty, x, fixed, -⟩
    · exact none
    · simp [bound] at fixed
  refine Proceeds.bind (emits.part em small he.found he.below (fun _ => rfl) seatTarget
    he.tracks covers) fun arg e₁ computed hk => ?_
  cases arg with
  | constant k =>
    have fixed := hk k rfl
    simp [eq, varies] at fixed
  | register reg =>
    refine Proceeds.bind (emits.part em small he.found he.below (fun _ => rfl) seatValue
      computed.tracks (computed.covers covers)) fun _ e₂ computed _ => ?_
    exact (computed.tracks.addPlain rfl rfl).answering fun _ _ _ _ => trivial

theorem simple (warn : Bool) (isSimple : stmt.isSimple) (he : o.Entered w id stmt ren e) :
    Proceeds (o.Moves w (.expr o.tree id)) (emitter.stmtBody warn id (stmt.renamed ren)) e
      fun _ e' => o.Registered e' [id] := by
  have nothing : ∀ e', stmt.declaredName? = none → o.Registered e' [id] := by
    intro e' none decl mem form hf dcl
    obtain rfl := List.mem_singleton.mp mem
    rw [he.found] at hf
    cases hf
    simp [none] at dcl
  cases stmt with
  | evaluate expr =>
    refine Proceeds.bind (emits.part em small he.found he.below (fun _ => rfl)
      (he.seats .expression expr (by simp [Stmt.slots])) he.tracks
      (he.covers he.reached)) fun _ e₁ computed _ => ?_
    exact Proceeds.pure (.refl computed.tracks _) (nothing e₁ rfl)
  | varDecl ty name init => exact emits.varDecl em small he
  | assign tgt v =>
    exact (emits.assign em small he).answering fun _ e' _ _ => nothing e' rfl
  | _ => simp [Stmt.isSimple] at isSimple

theorem returnValues {vals : List NodeId} (warn : Bool)
    (he : o.Entered w id (.returnValues vals) ren e) :
    Proceeds (o.Moves w (.stmt o.tree id))
    (emitter.stmtBody warn id (.returnValues (vals.map ren))) e
      fun _ e' => Aimed (id :: o.tree.ancestors id) e' := by
  have ho : o.Open w id none [] e := he.isOpen (by simp) List.nodup_nil
  have rets : ∀ {op : Op} {e₁}, op.target? = none → o.Open w id none [] e₁ →
      Proceeds (o.Moves w (.stmt o.tree id)) (EmitM.add op) e₁
        fun _ e' => Aimed (id :: o.tree.ancestors id) e' :=
    fun hp ho => ho.endCode (ho.tracks.add (by simp [hp]) False.elim)
  cases vals with
  | nil => exact rets rfl ho
  | cons fst others =>
    have seats : ∀ v ∈ fst :: others, o.Seat id .expression v (ren v) :=
      fun v mem => he.seats .expression v (List.mem_map_of_mem mem)
    have ready : ∀ node ∈ (fst :: others).map ren, o.tree.Below id node ∧ node.index < limit ∧
        o.Computable w node e := by
      intro node mem
      obtain ⟨v, isValue, rfl⟩ := List.mem_map.mp mem
      have lower := (seats v isValue).index_lt em.linked he.below
      refine ⟨(seats v isValue).under, by omega, (seats v isValue).computable he.below
        he.tracks (em.covers_shown he.below ho.covers (seats v isValue)
          (shows_nothing he.found fun _ => rfl) registered_nil)⟩
    have computes : Proceeds (o.Moves w (.expr o.tree id))
        (Emission.emitAll emitter.expr ((fst :: others).map ren)) e fun _ _ => True :=
      EmitsExpr.emitAll emits.expr (fun node mem _ hb => (ready node mem).1.trans hb)
        (fun node mem => (ready node mem).2.1) he.tracks
        fun node mem => (ready node mem).2.2
    refine Proceeds.bind_within computes (fun _ hm =>
      hm.within (Effect.within_stmt fun _ hb => hb)) fun operands e₁ hm _ => ?_
    exact rets rfl (ho.later hm (by simp) fun _ _ aims => aims.elim)

/-- Every other statement that can be executed. -/
theorem control (warn : Bool) (isExecutable : stmt.isExecutable)
    (x : stmt.isSimple = false) (he : o.Entered w id stmt ren e) :
    Proceeds (o.Moves w (.stmt o.tree id)) (emitter.stmtBody warn id (stmt.renamed ren)) e
      fun _ e' => Aimed (id :: o.tree.ancestors id) e' := by
  cases stmt with
  | block stmts => exact emits.block em small warn he
  | typedef name ty =>
    exact Proceeds.pure (.refl he.tracks _) (he.aimed.mono (List.subset_cons_self id _))
  | ifElse conds thenBranch els => exact emits.ifElse em small he
  | whileLoop conds body testLast => exact emits.whileLoop em small he
  | forLoop init conds updates body => exact emits.forLoop em small he
  | switch v cases => exact emits.switch em small he
  | labeled l body => exact emits.labeled em small warn he
  | breakOut l => exact em.proceeds_jump rfl he
  | continueLoop l => exact em.proceeds_jump rfl he
  | returnValues vals => exact emits.returnValues em small warn he
  | container name members => simp [Stmt.isExecutable] at isExecutable
  | method name ps rets body => simp [Stmt.isExecutable] at isExecutable
  | arm vals body => simp [Stmt.isExecutable] at isExecutable
  | condDecl ty name v => simp [Stmt.isExecutable] at isExecutable
  | evaluate expr => simp [Stmt.isSimple] at x
  | varDecl ty name init => simp [Stmt.isSimple] at x
  | assign tgt v => simp [Stmt.isSimple] at x

theorem stmtOnce (warn : Bool) (due : o.Due w id e) :
    Proceeds (o.Moves w (o.effect id)) (emitter.stmtOnce warn id) e
    fun _ e' => o.Sends id e e' := by
  have win : (Effect.expr o.tree id).Within (o.effect id) := Effect.expr_within fun _ hb => hb
  have marks : ∀ reachable, Proceeds (o.Moves w (.exprs o.tree []))
      (EmitM.setReachable id reachable) e fun _ e' => e'.code = e.code := due.tracks.setReachable id
  have touchesNothing : (Effect.exprs o.tree []).Within (o.effect id) :=
    ⟨fun x touched => absurd touched (touches_nothing x), fun _ _ aims => aims.elim, fun _ => trivial⟩
  refine Proceeds.bind_read rfl ?_
  cases hr : e.code.reachable with
  | false =>
    refine (marks false).mono (fun _ hm => hm.within touchesNothing) fun _ e' hm eq => ?_
    exact ⟨hm.aimed due.aimed fun _ _ aims => aims.elim, fun _ => eq, by simp [hr]⟩
  | true =>
    obtain ⟨stmt, hf, isExecutable⟩ := due.isStmt
    obtain ⟨ren, renamed, seats⟩ := em.stmt_seats due.below hf
    have valid : e.work.tree.stage id = .validated := due.unsent id .root
    refine Proceeds.bind_read rfl ?_
    simp only [valid, due.tracks.stmt?, renamed]
    refine Proceeds.bind_within (marks true) (fun _ hm => hm.within touchesNothing)
      fun _ e₁ hm eq => ?_
    have he := due.entered hr hm eq hf renamed seats
    cases isSimple : stmt.isSimple with
    | true =>
      refine Proceeds.bind_within (emits.simple em small warn isSimple he)
        (fun _ hm => hm.within win) fun _ e₂ hm registered => ?_
      have aimed := hm.aimed he.aimed fun _ _ aims => aims.elim
      refine (hm.tracks.send em due.below (aimed.mono (List.subset_cons_self id _))).mono
        (fun _ hm => hm.within win) fun _ e₃ hm aimed => ?_
      exact ⟨aimed, by simp [hr], fun _ => hm.registered registered⟩
    | false =>
      have notSimple : ¬o.Simple id := by
        rintro ⟨form, here, isSimple'⟩
        rw [hf] at here
        cases here
        simp [isSimple] at isSimple'
      have anything : (Effect.stmt o.tree id).Within (o.effect id) :=
        ⟨fun _ hb => hb, fun _ _ _ => notSimple, fun simple => absurd simple notSimple⟩
      refine Proceeds.bind_within (emits.control em small warn isExecutable isSimple he)
        (fun _ hm => hm.within anything) fun _ e₂ hm aimed => ?_
      refine (hm.tracks.send em due.below aimed).mono (fun _ hm => hm.within win)
        fun _ e₃ _ aimed => ⟨aimed, by simp [hr], fun _ decl mem form here dcl => ?_⟩
      obtain rfl := List.mem_singleton.mp mem
      rw [hf] at here
      cases here
      cases stmt <;> simp [Stmt.declaredName?, Stmt.isSimple, Stmt.isExecutable] at *

end Emits

/-- Every statement of a valid unit is emitted. -/
theorem Emittable.emits (em : o.Emittable w) (warn : Bool) (limit : Nat) :
    o.Emits w limit (emitterWithin warn limit) := by
  induction limit with
  | zero =>
    exact ⟨em.emitsExpr 0, @Emittable.emitsBranch o w em 0, fun small => absurd small (Nat.not_lt_zero _)⟩
  | succ limit ih =>
    exact ⟨em.emitsExpr (limit + 1), em.emitsBranch (limit + 1),
      fun small due => ih.stmtOnce em (Nat.le_of_lt_succ small) warn due⟩

end Outset

end TreeCompiler
