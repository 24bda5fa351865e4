import TreeCompiler.Proofs.EmissionFrames

/-!
# Safe emission of expressions

A step of emission is safe if it never puts code together that breaks the rules of code: it may
stop, but not on an error of code. Every step that fits into its frame is safe.
-/

namespace TreeCompiler

open Step

variable {op : Op} {tgt l : Label} {level : Nat}

/-- A step that ends well with a property, or stops on something else than an error of code. -/
def Step.Safe {σ α : Type} (m : EStateM Defect σ α) (s : σ) (post : α → σ → Prop) : Prop :=
  match m s with
  | .ok a s' => post a s'
  | .error defect _ => ∀ error, defect ≠ .code error

namespace Step.Safe

variable {σ α β : Type} {m : EStateM Defect σ α} {f : α → EStateM Defect σ β} {s s' : σ} {a : α}
  {post mid : α → σ → Prop} {last : β → σ → Prop}

theorem of_ok (ran : m s = .ok a s') (h : post a s') : Safe m s post := by
  unfold Safe
  rw [ran]
  exact h

theorem pure (h : post a s) : Safe (Pure.pure a) s post := h

theorem throw {defect : Defect} (x : ∀ error, defect ≠ .code error) :
    Safe (MonadExcept.throw defect) s post := x

theorem bind (fst : Safe m s mid) (rest : ∀ a s', mid a s' → Safe (f a) s' last) :
    Safe (m >>= f) s last := by
  unfold Safe at fst ⊢
  simp only [Bind.bind, EStateM.bind]
  cases ran : m s with
  | ok a s' =>
    rw [ran] at fst
    exact rest a s' fst
  | error defect s' =>
    rw [ran] at fst
    exact fst

/-- A first step that is known to end well. -/
theorem bind_ok (ran : m s = .ok a s') (rest : Safe (f a) s' last) : Safe (m >>= f) s last := by
  have fst : Safe m s fun b s'' => b = a ∧ s'' = s' := of_ok ran ⟨rfl, rfl⟩
  refine bind fst ?_
  rintro b s'' ⟨rfl, rfl⟩
  exact rest

theorem mono (safe : Safe m s mid) (weaker : ∀ a s', mid a s' → post a s') : Safe m s post := by
  unfold Safe at safe ⊢
  cases ran : m s with
  | ok a s' =>
    rw [ran] at safe
    exact weaker a s' safe
  | error defect s' =>
    rw [ran] at safe
    exact safe

end Step.Safe

namespace Emission

open EmitM

variable {plan : Plan} {fr : Frame} {n : Nat} {e : Emission}

/-- A state that fits, whatever was answered. -/
abbrev Fitting {α : Type} (plan : Plan) (fr : Frame) (n : Nat) (_ : α) (e : Emission) : Prop :=
  e.Fits plan fr n

/-- A state that fits with an operand that can be read from then on. -/
def Gives (plan : Plan) (fr : Frame) (n : Nat) (arg : Operand) (e : Emission) : Prop :=
  ∃ floor, fr.floor ≤ floor ∧ e.Fits plan (fr.raised floor) n ∧ arg.Below floor

namespace Fits

theorem safe_readPool {α : Type} {look : Pool → Except PoolError α} :
    Safe (onWork (.readPool look)) e fun _ e' => e' = e := by
  cases hf : look e.work.pool with
  | ok a => exact Safe.of_ok (readPool_ok.mpr ⟨hf, rfl⟩) rfl
  | error error =>
    unfold Safe
    simp [onWork, WorkM.readPool, WorkM.onPool, PoolM.read, bind, EStateM.bind, get, getThe,
      MonadStateOf.get, EStateM.get, hf, throw, throwThe, MonadExceptOf.throw, EStateM.throw]

variable (fits : e.Fits plan fr n)

include fits

theorem safe_setStage (id : NodeId) : Safe (EmitM.setStage id .emitted) e (Fitting plan fr n) :=
  Safe.of_ok (a := ()) (setStage_ok.mpr rfl) (fits.noted id (fun _ => rfl) (fun _ => rfl) fun _ => .inr rfl)

theorem safe_setReachable (id : NodeId) (reachable : Bool) :
    Safe (EmitM.setReachable id reachable) e (Fitting plan fr n) :=
  Safe.of_ok (a := ()) (setReachable_ok.mpr rfl)
    (fits.noted id (fun _ => rfl) (fun _ => rfl) fun _ => .inl rfl)

theorem safe_report (diag : Diagnostic) :
    Safe (EmitM.onWork (.report diag)) e (Fitting plan fr n) :=
  Safe.of_ok (a := ()) (report_ok.mpr rfl) (fits.reported diag)

theorem safe_add {t : Nat} (changed : op.depthAfter n = some t)
    (hl : ∀ l, op.target? = some l → fr.ports.Leads l t)
    (reads : ∀ arg ∈ op.operands, arg.Below fr.floor)
    (writes : ∀ reg, op.written? = some reg → reg.index < fr.floor) :
    Safe (EmitM.add op) e (Fitting plan fr t) :=
  Safe.of_ok (a := ()) (add_ok.mpr rfl) (fits.add changed hl fun reg mem =>
    Nat.lt_of_lt_of_le (Op.registers_below reads writes reg mem) fits.floor)

/-- An instruction that neither jumps nor enters or leaves a scope. -/
theorem safe_addPlain (changed : op.depthAfter n = some n) (hp : op.target? = none)
    (reads : ∀ arg ∈ op.operands, arg.Below fr.floor)
    (writes : ∀ reg, op.written? = some reg → reg.index < fr.floor) :
    Safe (EmitM.add op) e (Fitting plan fr n) :=
  fits.safe_add changed (by simp [hp]) reads writes

/-- A jump that reads nothing. -/
theorem safe_addJump (hl : fr.ports.Leads tgt n) :
    Safe (EmitM.add (.jump tgt)) e (Fitting plan fr n) := by
  refine fits.safe_add rfl (fun l aims => ?_) (by simp [Op.operands]) (by simp [Op.written?])
  cases aims
  exact hl

theorem safe_jumpIfReachable (hl : fr.ports.Leads tgt n) :
    Safe (EmitM.jumpIfReachable tgt) e (Fitting plan fr n) := by
  refine Safe.bind_ok rfl ?_
  cases e.code.reachable with
  | true => exact fits.safe_addJump hl
  | false => exact Safe.pure fits

theorem safe_enterIf {cond : Bool} {i : Nat} (level : i = n + if cond then 1 else 0) :
    Safe (EmitM.addIf cond .enter) e (Fitting plan fr i) := by
  subst level
  cases cond with
  | true =>
    exact fits.safe_add rfl (by simp [Op.target?]) (by simp [Op.operands]) (by simp [Op.written?])
  | false => exact Safe.pure fits

theorem safe_exitIf {cond : Bool} {outer : Nat} (level : n = outer + if cond then 1 else 0) :
    Safe (EmitM.addIf cond .exit) e (Fitting plan fr outer) := by
  subst level
  cases cond with
  | true =>
    exact fits.safe_add rfl (by simp [Op.target?]) (by simp [Op.operands]) (by simp [Op.written?])
  | false => exact Safe.pure fits

theorem safe_newRegister : Safe EmitM.newRegister e fun reg e' =>
    ∃ floor, fr.floor ≤ floor ∧ e'.Fits plan (fr.raised floor) n ∧ reg.index < floor := by
  refine Safe.of_ok rfl ⟨e.code.nextRegister + 1, ?_, ?_, ?_⟩
  · exact Nat.le_trans fits.floor (Nat.le_succ _)
  · exact fits.newRegister.raised
  · exact Nat.lt_succ_self _

theorem safe_declare (decl : NodeId) : Safe (EmitM.declare decl) e fun reg e' =>
    ∃ floor, fr.floor ≤ floor ∧ e'.Fits plan (fr.raised floor) n ∧ reg.index < floor := by
  refine Safe.bind_ok (register?_ok.mpr ⟨rfl, rfl⟩) ?_
  cases hf : e.locals.lookup decl with
  | some reg =>
    exact Safe.pure ⟨e.code.nextRegister, fits.floor, fits.raised, fits.locals decl reg hf⟩
  | none =>
    refine Safe.of_ok (bindRegister_ok.mpr ⟨rfl, rfl⟩) ⟨e.code.nextRegister + 1, ?_, ?_, ?_⟩
    · exact Nat.le_trans fits.floor (Nat.le_succ _)
    · exact (fits.bound decl).raised
    · exact Nat.lt_succ_self _

theorem safe_newHelper : Safe EmitM.newHelper e fun l e' =>
    e'.Fits plan (fr.opened l n) n ∧ fr.ports.Lacks l :=
  Safe.of_ok rfl fits.newHelper

end Fits

theorem Fits.safe_placeJoin_here (fits : e.Fits plan (fr.opened l level) n)
    (lacks : fr.ports.Lacks l)
    (arrives : e.code.reachable = true → n = level) : Safe (EmitM.placeJoin l) e fun _ e' =>
      e'.Fits plan fr level ∧ e'.code.offset? l = some e'.code.size ∧ e'.Spares l := by
  have here : (e.code.joined l).offset? l = some (e.code.joined l).size := by
    rw [Buffer.offset?_joined, if_pos rfl]
    rfl
  exact Safe.of_ok (a := ()) (EmitM.placeJoin_ok.mpr ⟨fits.balanced.unplaced Ports.opens_opened_self, rfl⟩)
    ⟨fits.joined lacks arrives, here, fits.past.spares Ports.leads_opened_self.not_lacks⟩

theorem Fits.safe_placeJoin (fits : e.Fits plan (fr.opened l level) n) (lacks : fr.ports.Lacks l)
    (arrives : e.code.reachable = true → n = level) :
    Safe (EmitM.placeJoin l) e (Fitting plan fr level) :=
  (fits.safe_placeJoin_here lacks arrives).mono fun _ _ hp => hp.1

/-- A label that was open is placed to be jumped back to. -/
theorem Fits.safe_place (fits : e.Fits plan (fr.opened l level) n) (lacks : fr.ports.Lacks l)
    (arrives : e.code.reachable = true → n = level) :
    Safe (EmitM.place l) e (Fitting plan (fr.headed l level) level) :=
  Safe.of_ok (a := ()) (EmitM.place_ok.mpr ⟨fits.balanced.unplaced Ports.opens_opened_self, rfl⟩)
    (fits.entered lacks arrives)

/-! ### Expressions -/

/-- A step that emits operands safely. -/
def SafeExpr (plan : Plan) (emit : NodeId → EmitM Operand) : Prop :=
  ∀ ⦃id fr n e⦄, e.Fits plan fr n → Safe (emit id) e (Gives plan fr n)

/-- A step that emits jumps on truth values safely. -/
def SafeBranch (plan : Plan) (branch : NodeId → Bool → Label → EmitM Unit) : Prop :=
  ∀ ⦃id out tgt fr n e⦄, e.Fits plan fr n → fr.ports.Leads tgt n →
    Safe (branch id out tgt) e (Fitting plan fr n)

section Expressions

variable {emit : NodeId → EmitM Operand} (ps : SafeExpr plan emit)

include ps

theorem safe_emitAll (fits : e.Fits plan fr n) (ids : List NodeId) :
    Safe (emitAll emit ids) e fun operands e' =>
      ∃ floor, fr.floor ≤ floor ∧ e'.Fits plan (fr.raised floor) n ∧
        ∀ arg ∈ operands, arg.Below floor := by
  induction ids generalizing fr e with
  | nil => exact Safe.pure ⟨fr.floor, Nat.le_refl _, fits, by simp⟩
  | cons id rest ih =>
    refine Safe.bind (ps fits) ?_
    rintro arg e1 ⟨floor, le, fits, hb⟩
    refine Safe.bind (ih fits) ?_
    rintro operands e2 ⟨floor', le', fits, belows⟩
    refine Safe.pure ⟨floor', Nat.le_trans le le', fits, fun x mem => ?_⟩
    rcases List.mem_cons.mp mem with rfl | mem
    · exact hb.mono le'
    · exact belows x mem

omit ps in
theorem safe_emitName (fits : e.Fits plan fr n) (id : NodeId) (name : String) :
    Safe (emitName id name) e (Gives plan fr n) := by
  refine Safe.bind_ok rfl ?_
  rcases (e.work.tree.facts id).binding with _ | ⟨decl⟩ | _ | _ | _
  case some.localDecl =>
    refine Safe.bind_ok (register?_ok.mpr ⟨rfl, rfl⟩) ?_
    cases hf : e.locals.lookup decl with
    | some reg =>
      exact Safe.pure ⟨e.code.nextRegister, fits.floor, fits.raised,
        Operand.below_register (fits.locals decl reg hf)⟩
    | none => exact Safe.throw (by simp)
  all_goals exact Safe.throw (by simp)

omit ps in
theorem Fits.safe_move (fits : e.Fits plan fr n) {source : Operand} {dest : Register}
    (read : source.Below fr.floor) (written : dest.index < fr.floor) :
    Safe (EmitM.add (.move source dest)) e (Fitting plan fr n) := by
  refine fits.safe_addPlain rfl rfl (fun arg mem => ?_) fun reg writes => ?_
  · rwa [List.mem_singleton.mp mem]
  · rwa [← Option.some.inj writes]

omit ps in
theorem Fits.safe_test (fits : e.Fits plan fr n) {arg : Operand}
    (changed : op.depthAfter n = some n) (reads : op.operands = [arg])
    (aims : op.target? = some tgt) (writes : op.written? = none)
    (read : arg.Below fr.floor) (hl : fr.ports.Leads tgt n) :
    Safe (EmitM.add op) e (Fitting plan fr n) := by
  refine fits.safe_add changed (fun l hf => ?_) (fun x mem => ?_) (by simp [writes])
  · cases aims.symm.trans hf
    exact hl
  · rw [reads] at mem
    rwa [List.mem_singleton.mp mem]

theorem safe_emitLogical (fits : e.Fits plan fr n) (op : BinaryOp) (lhs rhs : NodeId) :
    Safe (emitLogical emit op lhs rhs) e (Gives plan fr n) := by
  refine Safe.bind fits.safe_newRegister ?_
  rintro dest e1 ⟨floor1, le1, fits, destBelow⟩
  refine Safe.bind (ps fits) ?_
  rintro left e2 ⟨floor2, le2, fits, leftBelow⟩
  have destBelow : dest.index < floor2 := Nat.lt_of_lt_of_le destBelow le2
  refine Safe.bind (fits.safe_move leftBelow destBelow) fun _ e3 fits => ?_
  refine Safe.bind fits.safe_newHelper ?_
  rintro skip e4 ⟨fits, lacks⟩
  have skips : Safe (EmitM.add (skipRight op dest skip)) e4 fun _ e' =>
      e'.Fits plan ((fr.raised floor2).opened skip n) n := by
    have read : (Operand.register dest).Below floor2 := Operand.below_register destBelow
    cases op <;> exact fits.safe_test rfl rfl rfl rfl read Ports.leads_opened_self
  refine Safe.bind skips fun _ e5 fits => ?_
  refine Safe.bind (ps fits) ?_
  rintro right e6 ⟨floor3, le3, fits, rightBelow⟩
  have destBelow : dest.index < floor3 := Nat.lt_of_lt_of_le destBelow le3
  refine Safe.bind (fits.safe_move rightBelow destBelow) fun _ e7 fits => ?_
  have fits : e7.Fits plan ((fr.raised floor3).opened skip n) n := fits
  refine Safe.bind (fits.safe_placeJoin lacks fun _ => rfl) fun _ e8 fits => ?_
  exact Safe.pure ⟨floor3, Nat.le_trans le1 (Nat.le_trans le2 le3), fits, Operand.below_register destBelow⟩

theorem safe_emitBinary (fits : e.Fits plan fr n) (op : BinaryOp) (lhs rhs : NodeId) :
    Safe (emitBinary emit op lhs rhs) e (Gives plan fr n) := by
  refine Safe.bind (ps fits) ?_
  rintro left e1 ⟨floor1, le1, fits, leftBelow⟩
  refine Safe.bind (ps fits) ?_
  rintro right e2 ⟨floor2, le2, fits, rightBelow⟩
  refine Safe.bind fits.safe_newRegister ?_
  rintro dest e3 ⟨floor3, le3, fits, destBelow⟩
  refine Safe.bind (fits.safe_addPlain rfl rfl (fun arg mem => ?_) fun reg writes => ?_) ?_
  · rcases List.mem_cons.mp mem with rfl | mem
    · exact leftBelow.mono (Nat.le_trans le2 le3)
    · rw [List.mem_singleton.mp mem]
      exact rightBelow.mono le3
  · rwa [← Option.some.inj writes]
  rintro ⟨⟩ e4 fits
  exact Safe.pure ⟨floor3, Nat.le_trans le1 (Nat.le_trans le2 le3), fits, Operand.below_register destBelow⟩

theorem safe_emitVariable (fits : e.Fits plan fr n) (id : NodeId) (expr : Expr) :
    Safe (emitVariable emit id expr) e (Gives plan fr n) := by
  cases expr with
  | literal literal => exact Safe.throw (by simp)
  | name name => exact safe_emitName fits id name
  | paren i => exact ps fits
  | unary op arg =>
    refine Safe.bind (ps fits) ?_
    rintro source e1 ⟨floor1, le1, fits, sourceBelow⟩
    refine Safe.bind fits.safe_newRegister ?_
    rintro dest e2 ⟨floor2, le2, fits, destBelow⟩
    refine Safe.bind (fits.safe_addPlain rfl rfl (fun arg mem => ?_) fun reg writes => ?_) ?_
    · rw [List.mem_singleton.mp mem]
      exact sourceBelow.mono le2
    · rwa [← Option.some.inj writes]
    rintro ⟨⟩ e3 fits
    exact Safe.pure ⟨floor2, Nat.le_trans le1 le2, fits, Operand.below_register destBelow⟩
  | binary op lhs rhs =>
    show Safe (if op.isLogical then emitLogical emit op lhs rhs else emitBinary emit op lhs rhs) e _
    split
    · exact safe_emitLogical ps fits op lhs rhs
    · exact safe_emitBinary ps fits op lhs rhs
  | tuple ty es =>
    refine Safe.bind (safe_emitAll ps fits es) ?_
    rintro operands e1 ⟨floor1, le1, fits, hb⟩
    refine Safe.bind fits.safe_newRegister ?_
    rintro dest e2 ⟨floor2, le2, fits, destBelow⟩
    refine Safe.bind (fits.safe_addPlain rfl rfl (fun arg mem => ?_) fun reg writes => ?_) ?_
    · exact (hb arg mem).mono le2
    · rwa [← Option.some.inj writes]
    rintro ⟨⟩ e3 fits
    exact Safe.pure ⟨floor2, Nat.le_trans le1 le2, fits, Operand.below_register destBelow⟩

end Expressions

theorem safe_emitExprWithin (limit : Nat) : SafeExpr plan (emitExprWithin limit) := by
  induction limit with
  | zero => exact fun _ _ _ _ _ => Safe.throw (by simp)
  | succ limit ih =>
    intro id fr n e fits
    refine Safe.bind_ok rfl ?_
    cases (e.work.tree.facts id).constant with
    | some v =>
      exact Safe.pure ⟨fr.floor, Nat.le_refl _, fits, Operand.below_constant v _⟩
    | none =>
      refine Safe.bind_ok rfl ?_
      cases e.work.tree.expr? id with
      | none => exact Safe.throw (by simp)
      | some expr =>
        refine Safe.bind (safe_emitVariable ih fits id expr) ?_
        rintro arg e1 ⟨floor, le, fits, hb⟩
        refine Safe.bind (fits.safe_setStage id) fun _ e2 fits => ?_
        exact Safe.pure ⟨floor, le, fits, hb⟩

theorem safe_branchLogical {branch : NodeId → Bool → Label → EmitM Unit}
    (ps : SafeBranch plan branch) (fits : e.Fits plan fr n) (op : BinaryOp) (lhs rhs : NodeId)
    (out : Bool) (hl : fr.ports.Leads tgt n) :
    Safe (branchLogical branch op lhs rhs out tgt) e (Fitting plan fr n) := by
  unfold branchLogical
  dsimp only
  split
  · refine Safe.bind (ps fits hl) fun _ e1 fits => ?_
    exact ps fits hl
  · refine Safe.bind fits.safe_newHelper ?_
    rintro skip e1 ⟨fits, lacks⟩
    refine Safe.bind (ps fits Ports.leads_opened_self) fun _ e2 fits => ?_
    refine Safe.bind (ps fits (hl.opened lacks)) fun _ e3 fits => ?_
    exact fits.safe_placeJoin lacks fun _ => rfl

/-- A state that fits fits without the operand it gives. -/
theorem Gives.fits {arg : Operand} (gives : Gives plan fr n arg e) : e.Fits plan fr n := by
  obtain ⟨floor, le, fits, -⟩ := gives
  exact fits.lowered le

theorem safe_emitBranchWithin (limit : Nat) : SafeBranch plan (emitBranchWithin limit) := by
  induction limit with
  | zero => exact fun _ _ _ _ _ _ _ _ => Safe.throw (by simp)
  | succ limit ih =>
    intro id out tgt fr n e fits hl
    refine Safe.bind_ok rfl ?_
    cases (e.work.tree.facts id).constant with
    | some v =>
      refine Safe.bind Fits.safe_readPool ?_
      rintro hk e' rfl
      cases hk == some out with
      | true => exact fits.safe_addJump hl
      | false => exact Safe.pure fits
    | none =>
      refine Safe.bind_ok rfl ?_
      split
      · exact Safe.bind (ih fits hl) fun _ _ fits => fits.safe_setStage id
      · exact Safe.bind (safe_branchLogical ih fits _ _ _ _ hl) fun _ _ fits => fits.safe_setStage id
      · exact Safe.bind (safe_branchLogical ih fits _ _ _ _ hl) fun _ _ fits => fits.safe_setStage id
      · refine Safe.bind (safe_emitExprWithin _ fits) ?_
        rintro cond e1 ⟨floor, le, fits, hb⟩
        have tests : Safe (EmitM.add (jumpOn out cond tgt)) e1 fun _ e' =>
            e'.Fits plan (fr.raised floor) n := by
          cases out <;> exact fits.safe_test rfl rfl rfl rfl hb hl
        refine Safe.bind tests fun _ e2 fits => ?_
        exact (fits.lowered le).safe_setStage id

end Emission

end TreeCompiler
