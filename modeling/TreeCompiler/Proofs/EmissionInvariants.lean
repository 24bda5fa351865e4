import TreeCompiler.Proofs.EmissionSteps
import TreeCompiler.Proofs.PoolExtension
import TreeCompiler.Proofs.TreeChanges
import TreeCompiler.Proofs.WorkSteps

/-!
# Invariants of emission

Emission is made of few basic steps. What each of them keeps is kept by the emission of every
expression, statement and method that succeeds; what concerns the unit's work alone is kept wherever
emission ends. An invariant may rely on which nodes are emitted.
-/

namespace TreeCompiler

open Step

variable {own v body : NodeId} {ids conds : List NodeId}

variable {stmt : Stmt} {emit : NodeId → EmitM Operand} {cases : List NodeId}

/-- Whether labels may be asked for a node: it is a statement, or a jump goes there. -/
def Tree.OwnsLabels (tree : Tree) (own : NodeId) : Prop :=
  (tree.stmt? own).isSome ∨ ∃ id jump, (tree.facts id).jump = some jump ∧ jump.target = own

theorem Tree.ownsLabels_modifyFacts {tree : Tree} (owns : tree.OwnsLabels own)
    (id : NodeId) {f : Facts → Facts} (kept : ∀ facts : Facts, (f facts).jump = facts.jump) :
    (tree.modifyFacts id f).OwnsLabels own := by
  rcases owns with stmt | ⟨source, jump, bound, rfl⟩
  · exact .inl (by simpa using stmt)
  · exact .inr ⟨source, jump, by rw [tree.facts_modify_of _ kept]; exact bound, rfl⟩

theorem Tree.ownsLabels_labelScope {tree : Tree} (owns : tree.OwnsLabels own)
    (id : NodeId) (counter : UInt32) : (tree.labelScope id counter).2.1.OwnsLabels own := by
  unfold labelScope
  split
  · exact owns
  · exact ownsLabels_modifyFacts owns id fun _ => rfl

/-- A property of the state that is kept wherever emission notes nothing about a node. -/
structure EmissionBasics (P : Emission → Prop) : Prop where
  report : ∀ e diag, P e → P (e.reported diag)
  scope : ∀ e own, P e → e.work.tree.OwnsLabels own → P (e.withScope own)
  add : ∀ e op, P e → P (e.withCode (e.code.add op))
  place : ∀ e l, P e → e.code.offset? l = none → P (e.withCode (e.code.entered l))
  placeJoin : ∀ e l, P e → e.code.offset? l = none → P (e.withCode (e.code.joined l))
  register : ∀ e, P e → P (e.withCode e.code.newRegister.2)
  helper : ∀ e, P e → P (e.withCode e.code.newHelper.2)
  bound : ∀ e decl, P e → P (e.bound decl)
  still : ∀ e, P e → P (e.withCode e.code)

/-- A property of the state that every basic step of emission keeps. -/
structure EmissionInvariant (P : Emission → Prop) : Prop extends EmissionBasics P where
  facts : ∀ e id f, P e → (∀ facts : Facts, (f facts).lasting = facts.lasting ∧
      (f facts).labelScope = facts.labelScope) →
    P (e.withTree (e.work.tree.modifyFacts id f))

/-- A property of the state that every basic step of emission keeps, as long as only some nodes are
emitted, and one that holds wherever emission stops. -/
structure EmittingInvariant (sends : NodeId → Prop) (P E : Emission → Prop) : Prop
    extends EmissionBasics P where
  stops : ∀ e, P e → E e
  refused : ∀ e code, P e → E (e.withCode code)
  child : ∀ {e id child}, P e → sends id → child ∈ e.work.tree.children id → sends child
  sent : ∀ e id, P e → sends id → P (e.withTree (e.work.tree.setStage id .emitted))
  reach : ∀ e id reachable, P e → P (e.withTree (e.work.tree.modifyFacts id (EmitM.noteReachable reachable)))

namespace EmittingInvariant

open EmitM Emission

variable {sends : NodeId → Prop} {P E : Emission → Prop} (inv : EmittingInvariant sends P E) {α : Type}

include inv

theorem and_ownsLabels (own : NodeId) :
    EmittingInvariant sends (fun e => P e ∧ e.work.tree.OwnsLabels own) E where
  stops e h := inv.stops e h.1
  refused e code h := inv.refused e code h.1
  child h := inv.child h.1
  sent e id h sent := ⟨inv.sent e id h.1 sent, Tree.ownsLabels_modifyFacts h.2 id fun _ => rfl⟩
  reach e id reachable h := ⟨inv.reach e id reachable h.1, Tree.ownsLabels_modifyFacts h.2 id fun _ => rfl⟩
  report e diag h := ⟨inv.report e diag h.1, h.2⟩
  scope e x h owns :=
    ⟨inv.scope e x h.1 owns, Tree.ownsLabels_labelScope h.2 x e.work.labels⟩
  add e op h := ⟨inv.add e op h.1, h.2⟩
  place e l h unplaced := ⟨inv.place e l h.1 unplaced, h.2⟩
  placeJoin e l h unplaced := ⟨inv.placeJoin e l h.1 unplaced, h.2⟩
  register e h := ⟨inv.register e h.1, h.2⟩
  helper e h := ⟨inv.helper e h.1, h.2⟩
  bound e decl h := ⟨inv.bound e decl h.1, h.2⟩
  still e h := ⟨inv.still e h.1, h.2⟩

theorem child_of_stmt {e : Emission} {id c : NodeId} (h : P e) (sent : sends id)
    (hf : e.work.tree.stmt? id = some stmt) (mem : c ∈ stmt.children) : sends c :=
  inv.child h sent (by rwa [e.work.tree.children_of_stmt hf])

theorem throw (defect : Defect) : Holds P E (MonadExcept.throw defect : EmitM α) :=
  inv.stops

theorem readPool (look : Pool → Except PoolError α) : Holds P E (onWork (.readPool look)) := by
  intro e h
  unfold onWork WorkM.readPool WorkM.onPool
  cases hf : look e.work.pool with
  | ok v => rw [PoolM.read_of_ok hf]; exact h
  | error error => rw [PoolM.read_of_error hf]; exact inv.stops e h

theorem tryCode {step : Buffer → Except CodeError α × Buffer}
    (keeps : ∀ e a code, P e → step e.code = (.ok a, code) → P (e.withCode code)) :
    Holds P E (EmitM.tryCode step) := by
  intro e h
  rcases ran : step e.code with ⟨res, code⟩
  have hl : onCode step e = .ok res (e.withCode code) := by simp [onCode, ran, withCode]
  unfold EmitM.tryCode
  rw [bind_of_ok hl]
  cases res with
  | ok v => exact keeps e v code h ran
  | error error => exact inv.refused e code h

/-! ### Basic steps -/

theorem setStage {id : NodeId} (sent : sends id) : Holds P E (EmitM.setStage id .emitted) :=
  Holds.of_ok fun e => ⟨(), _, setStage_ok.mpr rfl, fun h => inv.sent e id h sent⟩

theorem setReachable (id : NodeId) (reachable : Bool) :
    Holds P E (EmitM.setReachable id reachable) :=
  Holds.of_ok fun e => ⟨(), _, setReachable_ok.mpr rfl, inv.reach e id reachable⟩

theorem reports (diag : Diagnostic) : Holds P E (onWork (.report diag)) :=
  Holds.of_ok fun e => ⟨(), _, report_ok.mpr rfl, inv.report e diag⟩

omit inv in
theorem looks : Holds P E EmitM.tree := Holds.of_ok fun _ => ⟨_, _, rfl, fun h => h⟩

omit inv in
/-- What follows a look at the tree may rely on what the tree is like. -/
theorem look {rest : Tree → EmitM α} (ends : ∀ e, P e → Holds P E (rest e.work.tree)) :
    Holds P E (EmitM.tree >>= rest) := fun e h => ends e h e h

omit inv in
theorem facts (id : NodeId) : Holds P E (EmitM.facts id) :=
  Holds.of_ok fun _ => ⟨_, _, rfl, fun h => h⟩

omit inv in
theorem reachable : Holds P E EmitM.reachable := Holds.of_ok fun _ => ⟨_, _, rfl, fun h => h⟩

omit inv in
theorem register? (decl : NodeId) : Holds P E (EmitM.register? decl) :=
  Holds.of_ok fun _ => ⟨_, _, rfl, fun h => h⟩

theorem adds (op : Op) : Holds P E (EmitM.add op) :=
  Holds.of_ok fun e => ⟨(), _, add_ok.mpr rfl, inv.add e op⟩

theorem addIf (cond : Bool) (op : Op) : Holds P E (EmitM.addIf cond op) := by
  cases cond with
  | true => exact inv.adds op
  | false => exact Holds.pure ()

theorem jumpIfReachable (tgt : Label) : Holds P E (EmitM.jumpIfReachable tgt) := by
  refine Holds.bind reachable fun arrives => ?_
  cases arrives with
  | true => exact inv.adds _
  | false => exact Holds.pure _

theorem places (l : Label) : Holds P E (EmitM.place l) := by
  refine inv.tryCode fun e _ code h ran => ?_
  obtain ⟨unplaced, rfl⟩ := Buffer.place_ok.mp ran
  exact inv.place e l h unplaced

theorem joins (l : Label) : Holds P E (EmitM.placeJoin l) := by
  refine inv.tryCode fun e _ code h ran => ?_
  obtain ⟨unplaced, rfl⟩ := Buffer.placeJoin_ok.mp ran
  exact inv.placeJoin e l h unplaced

theorem newRegister : Holds P E EmitM.newRegister :=
  Holds.of_ok fun e => ⟨_, _, newRegister_ok.mpr ⟨rfl, rfl⟩, inv.register e⟩

theorem newHelper : Holds P E EmitM.newHelper :=
  Holds.of_ok fun e => ⟨_, _, newHelper_ok.mpr ⟨rfl, rfl⟩, inv.helper e⟩

theorem bindRegister (decl : NodeId) : Holds P E (EmitM.bindRegister decl) :=
  Holds.of_ok fun e => ⟨_, _, bindRegister_ok.mpr ⟨rfl, rfl⟩, inv.bound e decl⟩

theorem declare (decl : NodeId) : Holds P E (EmitM.declare decl) := by
  refine Holds.bind (register? decl) fun reg => ?_
  cases reg with
  | some reg => exact Holds.pure reg
  | none => exact inv.bindRegister decl

theorem constantBool (id : NodeId) : Holds P E (EmitM.constantBool id) := by
  refine Holds.bind (facts id) fun facts => ?_
  cases facts.constant with
  | some v => exact inv.readPool _
  | none => exact Holds.pure none

/-- A label may be asked for a node that owns labels in every state with the property. -/
theorem label (owns : ∀ e, P e → e.work.tree.OwnsLabels own) (kind : LabelKind) :
    Holds P E (EmitM.label own kind) :=
  Holds.of_ok fun e => ⟨_, _, label_ok.mpr ⟨rfl, rfl⟩, fun h =>
    inv.scope e own h (owns e h)⟩

/-! ### Expressions -/

omit inv in
theorem emitAll (ps : ∀ id, sends id → Holds P E (emit id)) (sent : ∀ id ∈ ids, sends id) :
    Holds P E (Emission.emitAll emit ids) := by
  induction ids with
  | nil => exact Holds.pure []
  | cons id rest ih =>
    exact Holds.bind (ps id (sent id (by simp))) fun _ =>
      Holds.bind (ih fun x mem => sent x (by simp [mem])) fun _ => Holds.pure _

theorem emitName (id : NodeId) (name : String) : Holds P E (Emission.emitName id name) := by
  refine Holds.bind (facts id) fun facts => ?_
  split
  · refine Holds.bind (register? _) fun reg => ?_
    cases reg with
    | some reg => exact Holds.pure _
    | none => exact inv.throw _
  · exact inv.throw _

theorem emitVariable (ps : ∀ id, sends id → Holds P E (emit id))
    (id : NodeId) {expr : Expr} (sent : ∀ part ∈ expr.children, sends part) :
    Holds P E (Emission.emitVariable emit id expr) := by
  cases expr with
  | literal literal => exact inv.throw _
  | name name => exact inv.emitName id name
  | paren i => exact ps i (sent i (by simp [Expr.children]))
  | unary op arg =>
    exact Holds.bind (ps arg (sent arg (by simp [Expr.children]))) fun _ =>
      Holds.bind inv.newRegister fun _ => Holds.bind (inv.adds _) fun _ => Holds.pure _
  | binary op lhs rhs =>
    have left := ps lhs (sent lhs (by simp [Expr.children]))
    have right := ps rhs (sent rhs (by simp [Expr.children]))
    show Holds P E (if op.isLogical then emitLogical emit op lhs rhs else emitBinary emit op lhs rhs)
    split
    · exact Holds.bind inv.newRegister fun _ => Holds.bind left fun _ => Holds.bind (inv.adds _) fun _ =>
        Holds.bind inv.newHelper fun _ => Holds.bind (inv.adds _) fun _ => Holds.bind right fun _ =>
        Holds.bind (inv.adds _) fun _ => Holds.bind (inv.joins _) fun _ => Holds.pure _
    · exact Holds.bind left fun _ => Holds.bind right fun _ => Holds.bind inv.newRegister fun _ =>
        Holds.bind (inv.adds _) fun _ => Holds.pure _
  | tuple ty es =>
    exact Holds.bind (emitAll ps fun part mem => sent part (by simp [Expr.children, mem]))
      fun _ => Holds.bind inv.newRegister fun _ => Holds.bind (inv.adds _) fun _ => Holds.pure _

theorem emitExprWithin (n : Nat) {id : NodeId} (sent : sends id) :
    Holds P E (Emission.emitExprWithin n id) := by
  induction n generalizing id with
  | zero => exact inv.throw _
  | succ n ih =>
    refine Holds.bind (facts id) fun facts => ?_
    cases facts.constant with
    | some v => exact Holds.pure _
    | none =>
      refine look fun e h => ?_
      cases hf : e.work.tree.expr? id with
      | none => exact inv.throw _
      | some expr =>
        have ps : ∀ part ∈ expr.children, sends part := fun part mem =>
          inv.child h sent (by rwa [e.work.tree.children_of_expr hf])
        exact Holds.bind (inv.emitVariable (fun _ => ih) id ps) fun _ =>
          Holds.bind (inv.setStage sent) fun _ => Holds.pure _

theorem branchLogical {branch : NodeId → Bool → Label → EmitM Unit} {lhs rhs : NodeId}
    (left : ∀ out tgt, Holds P E (branch lhs out tgt))
    (right : ∀ out tgt, Holds P E (branch rhs out tgt)) (op : BinaryOp) (out : Bool)
    (tgt : Label) : Holds P E (Emission.branchLogical branch op lhs rhs out tgt) := by
  unfold Emission.branchLogical
  dsimp only
  split
  · exact Holds.bind (left _ _) fun _ => right _ _
  · exact Holds.bind inv.newHelper fun _ => Holds.bind (left _ _) fun _ =>
      Holds.bind (right _ _) fun _ => inv.joins _

theorem emitBranchWithin (n : Nat) {id : NodeId} (sent : sends id) (out : Bool)
    (tgt : Label) : Holds P E (Emission.emitBranchWithin n id out tgt) := by
  induction n generalizing id out tgt with
  | zero => exact inv.throw _
  | succ n ih =>
    refine Holds.bind (facts id) fun facts => ?_
    cases facts.constant with
    | some v => exact Holds.bind (inv.readPool _) fun _ => inv.addIf _ _
    | none =>
      refine look fun e h => ?_
      have part : ∀ {expr part}, e.work.tree.expr? id = some expr → part ∈ expr.children →
          ∀ out tgt, Holds P E (Emission.emitBranchWithin n part out tgt) :=
        fun hf mem => ih (inv.child h sent (by rwa [e.work.tree.children_of_expr hf]))
      have ends := inv.setStage sent
      split
      · rename_i hf
        exact Holds.bind (part hf (by simp [Expr.children]) _ _) fun _ => ends
      · rename_i hf
        exact Holds.bind (inv.branchLogical (part hf (by simp [Expr.children]))
          (part hf (by simp [Expr.children])) _ _ _) fun _ => ends
      · rename_i hf
        exact Holds.bind (inv.branchLogical (part hf (by simp [Expr.children]))
          (part hf (by simp [Expr.children])) _ _ _) fun _ => ends
      · exact Holds.bind (inv.emitExprWithin _ sent) fun _ => Holds.bind (inv.adds _) fun _ => ends

/-! ### Statements -/

theorem addDeclaration (reg : Register) (ty : NodeId) :
    Holds P E (Emission.addDeclaration reg ty) := by
  refine Holds.bind (facts ty) fun facts => ?_
  cases facts.type with
  | some ty => exact inv.adds _
  | none => exact inv.throw _

theorem constantConds (conds : List NodeId) : Holds P E (Emission.constantConds conds) := by
  induction conds with
  | nil => exact Holds.pure _
  | cons cond rest ih =>
    refine Holds.bind (inv.constantBool cond) fun hk => ?_
    rcases hk with _ | _ | _
    · refine Holds.bind ih fun hk => ?_
      rcases hk with _ | _ | _ <;> exact Holds.pure _
    · exact Holds.pure _
    · exact ih

theorem addTimes (times : Nat) (op : Op) : Holds P E (Emission.addTimes times op) := by
  induction times with
  | zero => exact Holds.pure _
  | succ times ih => exact Holds.bind (inv.adds op) fun _ => ih

theorem enterLoop (entersScope : Bool) (conds : List NodeId) :
    Holds P E (Emitter.enterLoop entersScope conds) := by
  have dcl : ∀ conds, Holds P E (Emitter.declareConds conds) := by
    intro conds
    induction conds with
    | nil => exact Holds.pure _
    | cons id rest ih =>
      refine Holds.bind looks fun tree => ?_
      split
      · exact Holds.bind (inv.declare id) fun _ => ih
      · exact ih
  unfold Emitter.enterLoop
  split
  · exact Holds.bind (inv.adds _) fun _ => dcl conds
  · exact Holds.pure _

theorem armTests (v : Operand) (tgt : Label) (ids : List NodeId) :
    Holds P E (Emitter.armTests v tgt ids) := by
  induction ids with
  | nil => exact Holds.pure _
  | cons id rest ih =>
    refine Holds.bind (facts id) fun facts => ?_
    cases facts.constant with
    | none => exact inv.throw _
    | some k => exact Holds.bind (inv.adds _) fun _ => ih

theorem jump (id : NodeId) : Holds P E (Emitter.jump id) := by
  intro e h
  have hl : EmitM.facts id e = .ok (e.work.tree.facts id) e := facts_ok.mpr ⟨rfl, rfl⟩
  unfold Emitter.jump
  rw [bind_of_ok hl]
  cases hf : (e.work.tree.facts id).jump with
  | none => exact inv.throw _ e h
  | some jump =>
    dsimp only
    rw [bind_of_ok (label_ok.mpr ⟨rfl, rfl⟩)]
    exact Holds.bind (inv.addTimes _ _) (fun _ => inv.adds _) _ (inv.scope e _ h (.inr ⟨id, jump, hf, rfl⟩))

end EmittingInvariant

/-- An emitter of parts that keeps whatever the basic steps keep. -/
structure Emission.Emitter.Lawful (em : Emission.Emitter) : Prop where
  expr : ∀ {sends P E}, EmittingInvariant sends P E → ∀ id, sends id → Holds P E (em.expr id)
  branch : ∀ {sends P E}, EmittingInvariant sends P E → ∀ id, sends id → ∀ out tgt,
    Holds P E (em.branch id out tgt)
  stmt : ∀ {sends P E}, EmittingInvariant sends P E → ∀ id, sends id → Holds P E (em.stmt id)

namespace EmittingInvariant

open EmitM Emission

variable {sends : NodeId → Prop} {P E : Emission → Prop} (inv : EmittingInvariant sends P E)
  {em : Emitter} (lawful : em.Lawful)

include inv lawful

theorem sequence (warn : Bool) (sent : ∀ id ∈ ids, sends id) :
    Holds P E (em.sequence warn ids) := by
  induction ids generalizing warn with
  | nil => exact Holds.pure _
  | cons id rest ih =>
    have goesOn := fun warn => ih warn fun x mem => sent x (by simp [mem])
    refine Holds.bind reachable fun arrives => ?_
    split
    · exact Holds.bind (lawful.stmt inv id (sent id (by simp))) fun _ => goesOn warn
    · refine Holds.bind (inv.setReachable id false) fun _ => Holds.bind looks fun tree => ?_
      dsimp only
      split
      · exact Holds.bind (inv.reports _) fun _ => goesOn _
      · exact goesOn _

theorem each (sent : ∀ id ∈ ids, sends id) : Holds P E (em.each ids) := by
  induction ids with
  | nil => exact Holds.pure _
  | cons id rest ih =>
    exact Holds.bind (lawful.stmt inv id (sent id (by simp))) fun _ =>
      ih fun x mem => sent x (by simp [mem])

theorem condDecl {cond : NodeId} (ty : NodeId) (sent : sends cond) (i : sends v)
    (out : Bool) (tgt : Label) : Holds P E (em.condDecl cond ty v out tgt) := by
  have ends := inv.setStage sent
  refine Holds.bind (inv.declare cond) fun reg =>
    Holds.bind (inv.addDeclaration reg ty) fun _ =>
    Holds.bind (lawful.expr inv v i) fun source => Holds.bind (inv.adds _) fun _ => ?_
  split
  · exact Holds.bind inv.newHelper fun _ => Holds.bind (inv.adds _) fun _ =>
      Holds.bind (inv.adds _) fun _ => Holds.bind (inv.joins _) fun _ => ends
  · exact Holds.bind (inv.adds _) fun _ => ends

theorem cond (own : NodeId) {id : NodeId} (sent : sends id) (out : Bool) (tgt : Label) :
    Holds P E (em.cond own id out tgt) := by
  refine look fun e h => ?_
  split
  · split
    · rename_i hf
      exact inv.condDecl lawful _ sent (inv.child_of_stmt h sent hf (by simp [Stmt.children])) _ _
    · exact lawful.branch inv _ sent _ _
  · exact inv.throw _

theorem condsOrJump (own : NodeId) (tgt : Label) (sent : ∀ id ∈ conds, sends id) :
    Holds P E (em.condsOrJump own tgt conds) := by
  induction conds with
  | nil => exact Holds.pure _
  | cons id rest ih =>
    refine Holds.bind reachable fun arrives => ?_
    split
    · exact Holds.bind (inv.cond lawful _ (sent id (by simp)) _ _) fun _ =>
        ih fun x mem => sent x (by simp [mem])
    · exact Holds.pure _

theorem leadingConds (own : NodeId) (skip : Label) (sent : ∀ id ∈ conds, sends id) :
    Holds P E (em.leadingConds own skip conds) := by
  induction conds with
  | nil => exact Holds.pure _
  | cons id rest ih =>
    exact Holds.bind (inv.cond lawful _ (sent id (by simp)) _ _) fun _ =>
      ih fun x mem => sent x (by simp [mem])

theorem testAgain (id : NodeId) (sent : ∀ id ∈ conds, sends id) (repeatLabel : Label) :
    Holds P E (em.testAgain id conds repeatLabel) := by
  refine Holds.bind reachable fun arrives => ?_
  split
  · unfold Emitter.condsThenJump
    split
    · exact inv.adds _
    · rename_i last hf
      have ends := inv.cond lawful id (sent last (List.mem_of_getLast? hf)) true repeatLabel
      split
      · exact ends
      · exact Holds.bind inv.newHelper fun _ => Holds.bind (inv.leadingConds lawful _ _
          fun x mem => sent x (List.dropLast_subset _ mem)) fun _ =>
          Holds.bind ends fun _ => inv.joins _
  · exact Holds.pure _

theorem armBodies (breakLabel : Label) {arms : List Emitter.Arm}
    (sent : ∀ arm ∈ arms, sends arm.id ∧ sends arm.body) :
    Holds P E (em.armBodies breakLabel arms) := by
  induction arms with
  | nil => exact Holds.pure _
  | cons arm rest ih =>
    obtain ⟨here, body⟩ := sent arm (by simp)
    exact Holds.bind (inv.joins _) fun _ => Holds.bind reachable fun _ =>
      Holds.bind (inv.setReachable _ _) fun _ => Holds.bind (lawful.stmt inv _ body) fun _ =>
      Holds.bind (inv.jumpIfReachable _) fun _ => Holds.bind (inv.setStage here) fun _ =>
      ih fun x mem => sent x (by simp [mem])

theorem varDecl (id ty : NodeId) {init : Option NodeId} (sent : ∀ v ∈ init, sends v) :
    Holds P E (em.varDecl id ty init) := by
  refine Holds.bind (inv.declare id) fun reg =>
    Holds.bind (inv.addDeclaration reg ty) fun _ => ?_
  cases init with
  | none => exact Holds.pure _
  | some init => exact Holds.bind (lawful.expr inv init (sent _ rfl)) fun _ => inv.adds _

theorem assign {tgt : NodeId} (place : sends tgt) (given : sends v) :
    Holds P E (em.assign tgt v) := by
  refine Holds.bind (lawful.expr inv tgt place) fun arg => ?_
  cases arg with
  | constant id => exact inv.throw _
  | register reg => exact Holds.bind (lawful.expr inv v given) fun _ => inv.adds _

section Owned

variable {id : NodeId} (owns : ∀ e, P e → e.work.tree.OwnsLabels id)

include owns

theorem ifElse {thenBranch : NodeId} {els : Option NodeId}
    (sent : ∀ part ∈ (Stmt.ifElse conds thenBranch els).children, sends part) :
    Holds P E (em.ifElse id conds thenBranch els) := by
  refine Holds.bind (inv.label owns _) fun _ => Holds.bind (inv.label owns _) fun _ =>
    Holds.bind looks fun tree => Holds.bind (inv.addIf _ _) fun _ =>
    Holds.bind (inv.condsOrJump lawful _ _ fun part mem => sent part
      (by simp [Stmt.children, mem])) fun _ =>
    Holds.bind (lawful.stmt inv _ (sent _ (by simp [Stmt.children]))) fun _ => ?_
  cases els with
  | none => exact Holds.bind (inv.joins _) fun _ => inv.addIf _ _
  | some els =>
    exact Holds.bind (inv.jumpIfReachable _) fun _ => Holds.bind (inv.joins _) fun _ =>
      Holds.bind (lawful.stmt inv _ (sent _ (by simp [Stmt.children]))) fun _ =>
      Holds.bind (inv.joins _) fun _ => inv.addIf _ _

theorem whileLoop (testLast : Bool)
    (sent : ∀ part ∈ (Stmt.whileLoop conds body testLast).children, sends part) :
    Holds P E (em.whileLoop id conds body testLast) := by
  have runs := lawful.stmt inv body (sent body (by simp [Stmt.children]))
  refine Holds.bind (inv.label owns _) fun _ => Holds.bind (inv.label owns _) fun _ =>
    Holds.bind (inv.label owns _) fun _ => Holds.bind (inv.constantConds conds) fun hk => ?_
  split
  · unfold Emitter.whileNever
    split
    · exact Holds.bind looks fun _ => Holds.bind (inv.addIf _ _) fun _ => Holds.bind runs fun _ =>
        Holds.bind (inv.joins _) fun _ => Holds.bind (inv.joins _) fun _ => inv.addIf _ _
    · exact inv.setReachable body false
  · exact Holds.bind (inv.places _) fun _ => Holds.bind (inv.places _) fun _ => Holds.bind runs fun _ =>
      Holds.bind (inv.jumpIfReachable _) fun _ => inv.joins _
  · exact Holds.bind looks fun _ => Holds.bind (inv.enterLoop _ _) fun _ =>
      Holds.bind (inv.addIf _ _) fun _ => Holds.bind (inv.places _) fun _ => Holds.bind runs fun _ =>
      Holds.bind (inv.joins _) fun _ => Holds.bind (inv.testAgain lawful _
        (fun part mem => sent part (by simp [Stmt.children, mem])) _) fun _ =>
      Holds.bind (inv.joins _) fun _ => inv.addIf _ _

theorem forLoop {init updates : List NodeId}
    (sent : ∀ part ∈ (Stmt.forLoop init conds updates body).children, sends part) :
    Holds P E (em.forLoop id init conds updates body) :=
  Holds.bind (inv.label owns _) fun _ => Holds.bind (inv.label owns _) fun _ =>
    Holds.bind (inv.label owns _) fun _ => Holds.bind (inv.adds _) fun _ =>
    Holds.bind (inv.each lawful fun part mem => sent part (by simp [Stmt.children, mem])) fun _ =>
    Holds.bind (inv.places _) fun _ => Holds.bind (inv.condsOrJump lawful _ _
      fun part mem => sent part (by simp [Stmt.children, mem])) fun _ =>
    Holds.bind (lawful.stmt inv _ (sent _ (by simp [Stmt.children]))) fun _ =>
    Holds.bind (inv.joins _) fun _ => Holds.bind (inv.each lawful fun part mem => sent part
      (by simp [Stmt.children, mem])) fun _ =>
    Holds.bind (inv.jumpIfReachable _) fun _ => Holds.bind (inv.joins _) fun _ => inv.adds _

omit lawful in
theorem switchTests (v : Operand) (default : Option Label) (i : Nat) (cases : List NodeId) :
    Holds P E (Emitter.switchTests id v default i cases) := by
  induction cases generalizing default i with
  | nil => exact Holds.pure _
  | cons arm rest ih =>
    refine Holds.bind looks fun tree => ?_
    split
    · exact Holds.bind (inv.label owns _) fun _ => Holds.bind (inv.armTests _ _ _) fun _ =>
        Holds.bind (ih _ _) fun _ => Holds.pure _
    · exact inv.throw _

omit lawful in
/-- The arms of a switch are its cases, and their bodies are parts of them. -/
theorem yields_switchTests (v : Operand) (default : Option Label) (i : Nat)
    (sent : ∀ case ∈ cases, sends case) :
    Yields P (fun ans => ∀ arm ∈ ans.2, sends arm.id ∧ sends arm.body)
      (Emitter.switchTests id v default i cases) := by
  induction cases generalizing default i with
  | nil => exact Yields.pure (by simp)
  | cons case rest ih =>
    intro e ans e' h done
    replace done := rest_ok done rfl
    cases hf : e.work.tree.stmt? case with
    | none => simp [hf] at done
    | some stmt =>
      cases stmt with
      | arm vals body =>
        simp only [hf] at done
        obtain ⟨tgt, labeled, ran, done⟩ := bind_ok.mp done
        have heldLabel := (inv.label owns _).keeps e tgt labeled h ran
        obtain ⟨u, tested, ran, done⟩ := bind_ok.mp done
        have heldTests := (inv.armTests v tgt vals).keeps labeled u tested heldLabel ran
        obtain ⟨more, last, ran, done⟩ := bind_ok.mp done
        obtain ⟨rfl, rfl⟩ := pure_ok.mp done
        obtain ⟨held, others⟩ := ih _ _ (fun x mem => sent x (by simp [mem])) tested more last heldTests ran
        have here : sends case := sent case (by simp)
        have hi : sends body := inv.child_of_stmt h here hf (by simp [Stmt.children])
        exact ⟨held, List.forall_mem_cons.mpr ⟨⟨here, hi⟩, others⟩⟩
      | _ => simp [hf] at done

theorem switch (sent : ∀ part ∈ (Stmt.switch v cases).children, sends part) :
    Holds P E (em.switch id v cases) :=
  Holds.bind (inv.label owns _) fun _ =>
    Holds.bind (lawful.expr inv _ (sent _ (by simp [Stmt.children]))) fun _ =>
    Holds.bindYields (inv.switchTests owns _ _ _ _) (inv.yields_switchTests owns _ _ _
      fun case mem => sent case (by simp [Stmt.children, mem])) fun ans arms =>
    Holds.bind (inv.adds _) fun _ => Holds.bind (inv.armBodies lawful _ arms) fun _ => inv.joins _

theorem stmtBody (warn : Bool) (sent : ∀ part ∈ stmt.children, sends part) :
    Holds P E (em.stmtBody warn id stmt) := by
  cases stmt with
  | block stmts =>
    exact Holds.bind looks fun _ => Holds.bind (inv.addIf _ _) fun _ =>
      Holds.bind (inv.sequence lawful _ sent) fun _ => inv.addIf _ _
  | evaluate expr =>
    exact Holds.bind (lawful.expr inv _ (sent _ (by simp [Stmt.children]))) fun _ => Holds.pure _
  | varDecl ty name init =>
    refine inv.varDecl lawful _ _ fun v hf => sent v ?_
    simp [Stmt.children, Option.mem_def.mp hf]
  | assign tgt v =>
    exact inv.assign lawful (sent _ (by simp [Stmt.children])) (sent _ (by simp [Stmt.children]))
  | typedef name ty => exact Holds.pure _
  | ifElse conds thenBranch els => exact inv.ifElse lawful owns sent
  | whileLoop conds body testLast => exact inv.whileLoop lawful owns testLast sent
  | forLoop init conds updates body => exact inv.forLoop lawful owns sent
  | switch v cases => exact inv.switch lawful owns sent
  | labeled l body =>
    refine Holds.bind (lawful.stmt inv body (sent _ (by simp [Stmt.children]))) fun _ =>
      Holds.bind (facts id) fun facts => ?_
    split
    · exact Holds.bind (inv.label owns _) fun _ => inv.joins _
    · exact Holds.pure _
  | breakOut l | continueLoop l => exact inv.jump id
  | returnValues vals =>
    cases vals with
    | nil => exact inv.adds _
    | cons v rest => exact Holds.bind (emitAll (lawful.expr inv) sent) fun _ => inv.adds _
  | container name members | method name ps rets body | arm vals body
  | condDecl ty name v => exact inv.throw _

end Owned

theorem stmtOnce (warn : Bool) {id : NodeId} (sent : sends id) :
    Holds P E (em.stmtOnce warn id) := by
  refine Holds.bind reachable fun arrives => ?_
  split
  · intro e h
    rw [bind_of_ok (tree_ok.mpr ⟨rfl, rfl⟩)]
    split
    · exact inv.stops e h
    · have held := inv.reach e id true h
      cases hf : e.work.tree.stmt? id with
      | none => exact inv.throw _ _ held
      | some stmt =>
        -- from here on the statement is known to own labels
        have both := inv.and_ownsLabels id
        have ends := Holds.bind (both.stmtBody lawful (fun _ held => held.2) warn fun part =>
          inv.child_of_stmt h sent hf) fun _ => both.setStage sent
        exact (ends _ ⟨held, Tree.ownsLabels_modifyFacts (.inl (by simp [hf])) id fun _ => rfl⟩).mono
          (fun _ held => held.1) fun _ held => held
  · exact inv.setReachable _ _

end EmittingInvariant

theorem Emission.emitterWithin_lawful (warn : Bool) (n : Nat) : (emitterWithin warn n).Lawful := by
  induction n with
  | zero =>
    exact ⟨fun inv _ => inv.emitExprWithin 0, fun inv _ => inv.emitBranchWithin 0, fun inv _ _ => inv.throw _⟩
  | succ n ih =>
    exact ⟨fun inv _ => inv.emitExprWithin _, fun inv _ => inv.emitBranchWithin _,
      fun inv _ => inv.stmtOnce ih warn⟩

namespace EmittingInvariant

open EmitM Emission

variable {sends : NodeId → Prop} {P E : Emission → Prop} (inv : EmittingInvariant sends P E)

include inv

theorem bindParams (ps : List Param) : Holds P E (Emission.bindParams ps) := by
  induction ps with
  | nil => exact Holds.pure _
  | cons param rest ih => exact Holds.bind (inv.bindRegister _) fun _ => ih

theorem emitBody (warn : Bool) (sent : sends body) : Holds P E (Emission.emitBody warn body) := by
  refine look fun e h => ?_
  have lawful := emitterWithin_lawful warn e.work.tree.fuel
  split
  · rename_i hf
    exact Holds.bind (inv.setReachable _ _) fun _ => Holds.bind (inv.sequence lawful _
      fun part => inv.child_of_stmt h sent hf) fun _ => inv.setStage sent
  · exact lawful.stmt inv _ sent

theorem emitEnd (id : NodeId) (name : String) (rets : List NodeId) :
    Holds P E (Emission.emitEnd id name rets) := by
  refine Holds.bind reachable fun arrives => ?_
  split
  · split
    · exact inv.adds _
    · exact Holds.of_ok fun e => ⟨(), _, reportAt_ok.mpr rfl, inv.report e _⟩
  · exact Holds.pure _

theorem emitMethod (warn : Bool) {id : NodeId}
    (sent : ∀ e, P e → (e.work.tree.stmt? id).isSome → sends id) :
    Holds P E (Emission.emitMethod warn id) := by
  refine look fun e h => ?_
  split
  · rename_i name ps rets body hf
    have here := sent e h (by simp [hf])
    refine Holds.bind (inv.bindParams _) fun _ => Holds.bind (inv.emitBody _
      (inv.child_of_stmt h here hf (by simp [Stmt.children]))) fun _ =>
      Holds.bind (inv.emitEnd _ _ _) fun _ => Holds.bind (inv.setStage here) fun _ =>
      inv.tryCode fun e _ code h finished => ?_
    rw [← (Prod.mk.inj finished).2]
    exact inv.still e h
  · exact inv.throw _

end EmittingInvariant

namespace EmissionInvariant

open Emission

variable {P : Emission → Prop} (inv : EmissionInvariant P)

include inv

theorem emitting : EmittingInvariant (fun _ => True) P fun _ => True where
  stops _ _ := trivial
  refused _ _ _ := trivial
  child _ _ _ := trivial
  sent e id h _ := inv.facts e id _ h fun _ => ⟨rfl, rfl⟩
  reach e id _ h := inv.facts e id _ h fun _ => ⟨rfl, rfl⟩
  toEmissionBasics := inv.toEmissionBasics

theorem keeps_bindParams (ps : List Param) : Keeps P (bindParams ps) :=
  (inv.emitting.bindParams ps).keeps

theorem keeps_emitBody (warn : Bool) (body : NodeId) : Keeps P (emitBody warn body) :=
  (inv.emitting.emitBody warn trivial).keeps

theorem keeps_emitMethod (warn : Bool) (id : NodeId) : Keeps P (emitMethod warn id) :=
  (inv.emitting.emitMethod warn fun _ _ _ => trivial).keeps

end EmissionInvariant

/-- A property of the work that every basic step of emission keeps, as long as only some nodes are
emitted. -/
structure SendingInvariant (sends : NodeId → Prop) (P : Work → Prop) : Prop where
  child : ∀ {w id child}, P w → sends id → child ∈ w.tree.children id → sends child
  sent : ∀ w id, P w → sends id → P (w.withTree (w.tree.setStage id .emitted))
  reach : ∀ w id reachable, P w → P (w.withTree (w.tree.modifyFacts id fun facts => { facts with reachable }))
  report : ∀ w diag, P w → P (w.reported diag)
  scope : ∀ w own, P w → P (w.withScope own)

namespace SendingInvariant

open Emission

variable {sends : NodeId → Prop} {P : Work → Prop} (inv : SendingInvariant sends P)

include inv

theorem emitting : EmittingInvariant sends (fun e => P e.work) fun e => P e.work where
  stops _ h := h
  refused _ _ h := h
  child h := inv.child h
  sent e id h := inv.sent e.work id h
  reach e id reachable h := inv.reach e.work id (some reachable) h
  report e diag h := inv.report e.work diag h
  scope e own h _ := inv.scope e.work own h
  add _ _ h := h
  place _ _ h _ := h
  placeJoin _ _ h _ := h
  register _ h := h
  helper _ h := h
  bound _ _ h := h
  still _ h := h

/-- What the basic steps of emission keep is kept by the emission of a method, wherever it ends. -/
theorem always_method (warn : Bool) {id : NodeId}
    (sent : ∀ w, P w → (w.tree.stmt? id).isSome → sends id) : Always P (method warn id) := by
  intro w h
  have kept := inv.emitting.emitMethod warn (fun e => sent e.work) { work := w } h
  unfold method
  cases ran : emitMethod warn id { work := w } <;> rw [ran] at kept <;> exact kept

end SendingInvariant

end TreeCompiler
