import TreeCompiler.Proofs.EmissionProgress

/-!
# Progress of emitting expressions

An expression of a valid unit is emitted without an internal error, whenever the locals that it
refers to have registers.
-/

namespace TreeCompiler

open Step Emission EmitM

namespace Effect

variable {tree : Tree} {effect : Effect} {id : NodeId}

theorem expr_within (hi : ∀ x, tree.Below id x → effect.region x) :
    (expr tree id).Within effect where
  region := hi
  aims _ _ aimed := aimed.elim
  flows _ := trivial

theorem expr_within_expr {c : NodeId} (under : tree.Below id c) :
    (expr tree c).Within (expr tree id) :=
  expr_within fun _ hb => under.trans hb

theorem tests_within {ids : List NodeId} {tgt : Label}
    (hi : ∀ id ∈ ids, ∀ x, tree.Below id x → effect.region x)
    (aims : tgt.kind.isHelper = true ∨ effect.aims tgt) (stops : ¬effect.flows) :
    (tests tree ids tgt).Within effect where
  region := by
    rintro x ⟨id, mem, hb⟩
    exact hi id mem x hb
  aims := by
    rintro l hp rfl
    exact aims.resolve_left (by simp [hp])
  flows flows := absurd flows stops

end Effect

namespace Outset

variable (o : Outset) (w : Work)

/-- An expression whose locals have registers. -/
structure Computable (id : NodeId) (e : Emission) : Prop where
  below : o.tree.Below o.root id
  expr : (o.tree.expr? id).isSome
  plain : o.Plain id
  tracks : o.Tracks w e
  covers : o.Covers e id

/-- Expressions are emitted up to an index. One that is not constant leaves its value in a
register. -/
def EmitsExpr (limit : Nat) (emit : NodeId → EmitM Operand) : Prop :=
  ∀ {id e}, id.index < limit → o.Computable w id e →
    Proceeds (o.Moves w (.expr o.tree id)) (emit id) e fun arg _ =>
      ∀ v, arg = .constant v → (w.tree.facts id).constant = some v

/-- Tests are emitted up to an index. -/
def EmitsBranch (limit : Nat) (branch : NodeId → Bool → Label → EmitM Unit) : Prop :=
  ∀ {id e out tgt}, id.index < limit → o.Computable w id e →
    Proceeds (o.Moves w (.tests o.tree [id] tgt)) (branch id out tgt) e fun _ _ => True

variable {o w} {effect : Effect} {e e' : Emission} {id c node : NodeId} {slot : Slot} {limit : Nat}

theorem Computable.later (computable : o.Computable w id e) (hm : o.Moves w effect e e') :
    o.Computable w id e' :=
  { computable with tracks := hm.tracks, covers := hm.covers computable.covers }

theorem Seat.computable (seat : o.Seat id .expression c node) (hb : o.tree.Below o.root id)
    (trk : o.Tracks w e) (covers : o.Covers e node) : o.Computable w node e :=
  ⟨hb.trans seat.under, seat.expr, seat.plain, trk, covers⟩

/-- What a parent declares for a child is visible beside what is visible at the parent. -/
theorem declaredAbove_cases {tree : Tree} {name : String} {stmt : Stmt} {outer : Option NodeId}
    {decl : NodeId} (hf : tree.declaredAbove name c stmt outer = some decl) :
    tree.declaredAbove name c stmt none = some decl ∨ outer = some decl := by
  cases stmt with
  | method => exact .inl hf
  | _ =>
    simp only [Tree.declaredAbove, Option.or_eq_some_iff] at hf ⊢
    grind

namespace Emittable

variable (em : o.Emittable w)

include em

/-- The locals that a part refers to have registers if those do that its parent declares for it. -/
theorem covers_seat (hb : o.tree.Below o.root id) (covers : o.Covers e id)
    (seat : o.Seat id slot c node)
    (hd : ∀ stmt, o.tree.stmt? id = some stmt → ∀ use name decl, o.tree.Below c use →
      o.tree.expr? use = some (.name name) → o.tree.localOf use name = some decl →
      o.tree.declaredAbove name c stmt none = some decl → (e.locals.lookup decl).isSome) :
    o.Covers e node := by
  intro use name decl under isName refers hv
  have hi : o.tree.Below c use := (seat.strips.isBelow .root).trans under
  rw [em.linked.findLocal_strips (hb.child seat.member) seat.strips,
    em.linked.findLocal_child hb seat.member] at hv
  have outside := covers use name decl ((Tree.Below.root.child seat.member).trans hi) isName refers
  cases hf : o.tree.stmt? id with
  | none =>
    rw [hf] at hv
    exact outside hv
  | some stmt =>
    rw [hf] at hv
    rcases declaredAbove_cases hv with here | there
    · exact hd stmt hf use name decl hi isName refers here
    · exact outside there

theorem computable_operand (computable : o.Computable w id e)
    (seat : o.Seat id .expression c node) : o.Computable w node e := by
  refine seat.computable computable.below computable.tracks
    (em.covers_seat computable.below computable.covers seat ?_)
  intro stmt hs
  obtain ⟨expr, isExpr⟩ := Option.isSome_iff_exists.mp computable.expr
  simp [o.tree.stmt?_of_expr isExpr] at hs

end Emittable

theorem EmitsExpr.emitAll {emit : NodeId → EmitM Operand} (emits : o.EmitsExpr w limit emit)
    {nodes : List NodeId} (hi : ∀ node ∈ nodes, ∀ x, o.tree.Below node x → effect.region x)
    (small : ∀ node ∈ nodes, node.index < limit) (trk : o.Tracks w e)
    (computable : ∀ node ∈ nodes, o.Computable w node e) :
    Proceeds (o.Moves w effect) (Emission.emitAll emit nodes) e fun _ _ => True := by
  induction nodes generalizing e with
  | nil => exact Proceeds.pure (.refl trk effect) trivial
  | cons node rest ih =>
    have fst := List.mem_cons_self (a := node) (l := rest)
    refine Proceeds.bind_within (emits (small node fst) (computable node fst))
      (fun _ hm => hm.within (Effect.expr_within (hi node fst))) ?_
    intro arg e' hm _
    refine Proceeds.bind (ih (fun node mem => hi node (List.mem_cons_of_mem _ mem))
      (fun node mem => small node (List.mem_cons_of_mem _ mem)) hm.tracks
      fun node mem => (computable node (List.mem_cons_of_mem _ mem)).later hm) ?_
    intro operands e'' hm _
    exact Proceeds.pure (.refl hm.tracks effect) trivial

theorem Emittable.proceeds_emitName (em : o.Emittable w) {name : String}
    (computable : o.Computable w id e) (isName : o.tree.expr? id = some (.name name))
    (varies : (w.tree.facts id).constant = none) :
    Proceeds (o.Moves w effect) (emitName id name) e fun arg _ => ∃ reg, arg = .register reg := by
  obtain ⟨decl, bound, refers⟩ := em.name computable.below isName varies
  have eq := computable.tracks.fact Facts.binding (fun _ => rfl) id
  refine Proceeds.bind_read rfl ?_
  simp only [eq, bound]
  refine Proceeds.bind_read (register?_ok.mpr ⟨rfl, rfl⟩) ?_
  obtain ⟨reg, hf⟩ := Option.isSome_iff_exists.mp
    (computable.covers id name decl .root isName refers (Tree.findLocal_of_localOf refers))
  simp only [hf]
  exact Proceeds.pure (.refl computable.tracks effect) ⟨reg, rfl⟩

section Operators

variable {emit : NodeId → EmitM Operand} {lhs rhs : NodeId} {op : BinaryOp}

theorem EmitsExpr.emitLogical (emits : o.EmitsExpr w limit emit)
    (left : o.Computable w lhs e) (right : o.Computable w rhs e)
    (underLeft : o.tree.Below id lhs) (underRight : o.tree.Below id rhs)
    (small : lhs.index < limit) (smaller : rhs.index < limit) :
    Proceeds (o.Moves w (.expr o.tree id)) (Emission.emitLogical emit op lhs rhs) e fun arg _ =>
      ∃ reg, arg = .register reg := by
  refine Proceeds.bind left.tracks.newRegister fun dest e₁ made _ => ?_
  refine Proceeds.bind_within (emits small (left.later made))
    (fun _ hm => hm.within (Effect.expr_within_expr underLeft)) fun source e₂ emitted _ => ?_
  refine Proceeds.bind (emitted.tracks.addPlain rfl rfl) fun _ e₃ moved _ => ?_
  refine Proceeds.bind moved.tracks.newHelper fun skip e₄ hn helper => ?_
  have jumps : ∀ l, (skipRight op dest skip).target? = some l →
      l.kind.isHelper = true ∨ (Effect.expr o.tree id).aims l := by
    intro l aimed
    obtain rfl : skip = l := by cases op <;> simpa [skipRight, Op.target?] using aimed
    exact .inl helper
  refine Proceeds.bind (hn.tracks.add jumps fun _ => by cases op <;> rfl) fun _ e₅ tested _ => ?_
  have later := ((((right.later made).later emitted).later moved).later hn).later tested
  refine Proceeds.bind_within (emits smaller later)
    (fun _ hm => hm.within (Effect.expr_within_expr underRight)) fun source e₆ emitted _ => ?_
  refine Proceeds.bind (emitted.tracks.addPlain rfl rfl) fun _ e₇ moved _ => ?_
  refine Proceeds.bind (moved.tracks.placeJoin skip) fun _ e₈ hp _ => ?_
  exact Proceeds.pure (.refl hp.tracks _) ⟨dest, rfl⟩

theorem EmitsExpr.emitBinary (emits : o.EmitsExpr w limit emit)
    (left : o.Computable w lhs e) (right : o.Computable w rhs e)
    (underLeft : o.tree.Below id lhs) (underRight : o.tree.Below id rhs)
    (small : lhs.index < limit) (smaller : rhs.index < limit) :
    Proceeds (o.Moves w (.expr o.tree id)) (Emission.emitBinary emit op lhs rhs) e fun arg _ =>
      ∃ reg, arg = .register reg := by
  refine Proceeds.bind_within (emits small left)
    (fun _ hm => hm.within (Effect.expr_within_expr underLeft)) fun _ e₁ fst _ => ?_
  refine Proceeds.bind_within (emits smaller (right.later fst))
    (fun _ hm => hm.within (Effect.expr_within_expr underRight)) fun _ e₂ snd _ => ?_
  refine Proceeds.bind snd.tracks.newRegister fun dest e₃ made _ => ?_
  refine Proceeds.bind (made.tracks.addPlain rfl rfl) fun _ e₄ added _ => ?_
  exact Proceeds.pure (.refl added.tracks _) ⟨dest, rfl⟩

end Operators

theorem Emittable.operands (em : o.Emittable w) (computable : o.Computable w id e)
    (small : id.index ≤ limit) : ∃ orig ren, o.tree.expr? id = some orig ∧
      w.tree.expr? id = some (orig.renamed ren) ∧ ∀ c, (Slot.expression, c) ∈ orig.slots →
        o.Computable w (ren c) e ∧ o.tree.Below id (ren c) ∧ (ren c).index < limit := by
  obtain ⟨orig, isExpr⟩ := Option.isSome_iff_exists.mp computable.expr
  obtain ⟨ren, renamed, seats⟩ := em.expr_seats computable.below isExpr
  refine ⟨orig, ren, isExpr, renamed, fun c mem => ?_⟩
  have seat := seats .expression c mem
  refine ⟨em.computable_operand computable seat, seat.under, ?_⟩
  have := seat.index_lt em.linked computable.below
  omega

theorem Emittable.proceeds_emitVariable (em : o.Emittable w) {emit : NodeId → EmitM Operand}
    (emits : o.EmitsExpr w limit emit) (computable : o.Computable w id e)
    (small : id.index ≤ limit) (varies : (w.tree.facts id).constant = none) {expr : Expr}
    (hf : w.tree.expr? id = some expr) :
    Proceeds (o.Moves w (.expr o.tree id)) (emitVariable emit id expr) e fun arg _ =>
      ∃ reg, arg = .register reg := by
  obtain ⟨orig, ren, isExpr, renamed, arg⟩ := em.operands computable small
  obtain rfl : expr = orig.renamed ren := by
    rw [hf] at renamed
    exact Option.some.inj renamed
  cases orig with
  | literal literal =>
    have hk := (em.holds computable.below).literal literal isExpr
    simp [varies] at hk
  | name name => exact em.proceeds_emitName computable isExpr varies
  | paren i => exact absurd isExpr (computable.plain i)
  | unary op c =>
    obtain ⟨ready, under, smaller⟩ := arg c (by simp [Expr.slots])
    refine Proceeds.bind_within (emits smaller ready)
      (fun _ hm => hm.within (Effect.expr_within_expr under)) fun _ e₁ emitted _ => ?_
    refine Proceeds.bind emitted.tracks.newRegister fun dest e₂ made _ => ?_
    refine Proceeds.bind (made.tracks.addPlain rfl rfl) fun _ e₃ added _ => ?_
    exact Proceeds.pure (.refl added.tracks _) ⟨dest, rfl⟩
  | binary op lhs rhs =>
    obtain ⟨left, underLeft, smallLeft⟩ := arg lhs (by simp [Expr.slots])
    obtain ⟨right, underRight, smallRight⟩ := arg rhs (by simp [Expr.slots])
    simp only [Expr.renamed, emitVariable]
    split
    · exact emits.emitLogical left right underLeft underRight smallLeft smallRight
    · exact emits.emitBinary left right underLeft underRight smallLeft smallRight
  | tuple ty es =>
    have ready : ∀ node ∈ es.map ren, o.Computable w node e ∧ o.tree.Below id node ∧
        node.index < limit := by
      intro node mem
      obtain ⟨c, hi, rfl⟩ := List.mem_map.mp mem
      exact arg c (by simp [Expr.slots, hi])
    refine Proceeds.bind (emits.emitAll (fun node mem x hb =>
      (ready node mem).2.1.trans hb) (fun node mem => (ready node mem).2.2)
      computable.tracks fun node mem => (ready node mem).1) fun _ e₁ emitted _ => ?_
    refine Proceeds.bind emitted.tracks.newRegister fun dest e₂ made _ => ?_
    refine Proceeds.bind (made.tracks.addPlain rfl rfl) fun _ e₃ added _ => ?_
    exact Proceeds.pure (.refl added.tracks _) ⟨dest, rfl⟩

theorem Emittable.emitsExpr (em : o.Emittable w) (limit : Nat) :
    o.EmitsExpr w limit (emitExprWithin limit) := by
  induction limit with
  | zero => exact fun small => absurd small (Nat.not_lt_zero _)
  | succ limit ih =>
    intro id e small computable
    refine Proceeds.bind_read rfl ?_
    rw [computable.tracks.constant id]
    cases hk : (w.tree.facts id).constant with
    | some v =>
      refine Proceeds.pure (.refl computable.tracks _) fun x eq => ?_
      rw [Operand.constant.inj eq]
    | none =>
      refine Proceeds.bind_read rfl ?_
      obtain ⟨orig, isExpr⟩ := Option.isSome_iff_exists.mp computable.expr
      obtain ⟨ren, renamed, -⟩ := em.expr_seats computable.below isExpr
      rw [computable.tracks.expr? id, renamed]
      refine Proceeds.bind (em.proceeds_emitVariable ih computable (by omega) hk renamed) ?_
      rintro _ e₁ emitted ⟨reg, rfl⟩
      refine Proceeds.bind (emitted.tracks.setStage .root) fun _ e₂ hs _ => ?_
      exact Proceeds.pure (.refl hs.tracks _) (by simp)

/-! ### Tests -/

theorem EmitsBranch.branchLogical {branch : NodeId → Bool → Label → EmitM Unit}
    (emits : o.EmitsBranch w limit branch) {op : BinaryOp} {lhs rhs : NodeId} {out : Bool}
    {tgt : Label} (left : o.Computable w lhs e) (right : o.Computable w rhs e)
    (underLeft : o.tree.Below id lhs) (underRight : o.tree.Below id rhs)
    (small : lhs.index < limit) (smaller : rhs.index < limit) :
    Proceeds (o.Moves w (.tests o.tree [id] tgt))
      (Emission.branchLogical branch op lhs rhs out tgt) e fun _ _ => True := by
  have win : ∀ {c : NodeId} {aim : Label}, o.tree.Below id c → (aim.kind.isHelper = true ∨ aim = tgt) →
      (Effect.tests o.tree [c] aim).Within (.tests o.tree [id] tgt) := by
    intro c aim under aims
    refine Effect.tests_within (fun node mem x hb => ?_) aims fun flows => flows
    obtain rfl := List.mem_singleton.mp mem
    exact ⟨id, List.mem_singleton_self id, under.trans hb⟩
  unfold Emission.branchLogical
  dsimp only
  split
  · refine Proceeds.bind_within (emits small left)
      (fun _ hm => hm.within (win underLeft (.inr rfl))) fun _ e₁ fst _ => ?_
    exact (emits smaller (right.later fst)).mono
      (fun _ hm => hm.within (win underRight (.inr rfl))) fun _ _ _ _ => trivial
  · refine Proceeds.bind left.tracks.newHelper fun skip e₁ hn helper => ?_
    refine Proceeds.bind_within (emits small (left.later hn))
      (fun _ hm => hm.within (win underLeft (.inl helper))) fun _ e₂ fst _ => ?_
    refine Proceeds.bind_within (emits smaller ((right.later hn).later fst))
      (fun _ hm => hm.within (win underRight (.inr rfl))) fun _ e₃ snd _ => ?_
    exact (snd.tracks.placeJoin skip).answering fun _ _ _ _ => trivial

theorem Tracks.markTest {m : EmitM Unit} {tgt : Label}
    (tests : Proceeds (o.Moves w (.tests o.tree [id] tgt)) m e fun _ _ => True) :
    Proceeds (o.Moves w (.tests o.tree [id] tgt))
      (do m; EmitM.setStage id .emitted) e fun _ _ => True := by
  have hi : (Effect.tests o.tree [id] tgt).region id := ⟨id, List.mem_singleton_self id, .root⟩
  exact Proceeds.bind tests fun _ _ tested _ =>
    (tested.tracks.setStage hi).answering fun _ _ _ _ => trivial

/-- The test of an expression that is not taken apart: its value is computed and tested. -/
theorem EmitsExpr.emitTest {emit : NodeId → EmitM Operand} (emits : o.EmitsExpr w limit emit)
    (small : id.index < limit) (computable : o.Computable w id e) (out : Bool) (tgt : Label) :
    Proceeds (o.Moves w (.tests o.tree [id] tgt))
      (do
        let cond ← emit id
        EmitM.add (jumpOn out cond tgt)
        EmitM.setStage id .emitted) e fun _ _ => True := by
  refine Proceeds.bind_within (emits small computable)
    (fun _ hm => hm.within (Effect.expr_within fun _ hb =>
      ⟨id, List.mem_singleton_self id, hb⟩)) fun cond e₁ emitted _ => ?_
  refine Tracks.markTest ((emitted.tracks.add (fun l aimed => ?_) False.elim).answering
    fun _ _ _ _ => trivial)
  obtain rfl : tgt = l := by
    cases out <;> simpa [jumpOn, Op.target?] using aimed
  exact .inr rfl

/-- Every test of a valid unit is emitted. -/
theorem Emittable.emitsBranch (em : o.Emittable w) (limit : Nat) :
    o.EmitsBranch w limit (emitBranchWithin limit) := by
  induction limit with
  | zero => exact fun small => absurd small (Nat.not_lt_zero _)
  | succ limit ih =>
    intro id e out tgt small computable
    refine Proceeds.bind_read rfl ?_
    rw [computable.tracks.constant id]
    cases hk : (w.tree.facts id).constant with
    | some v =>
      obtain ⟨ans, hf⟩ := em.bool? computable.below hk
      rw [← computable.tracks.pool] at hf
      refine Proceeds.bind_read (readPool_ok.mpr ⟨hf, rfl⟩) ?_
      unfold EmitM.addIf
      split
      · exact computable.tracks.addJump rfl fun flows => flows
      · exact Proceeds.pure (.refl computable.tracks _) trivial
    | none =>
      refine Proceeds.bind_read rfl ?_
      have whole := EmitsExpr.emitTest (em.emitsExpr (limit + 1)) small computable out tgt
      obtain ⟨orig, ren, isExpr, renamed, arg⟩ := em.operands computable (Nat.le_of_lt_succ small)
      rw [computable.tracks.expr? id, renamed]
      cases orig with
      | unary op c =>
        cases op with
        | not =>
          obtain ⟨ready, under, smaller⟩ := arg c (by simp [Expr.slots])
          refine Tracks.markTest ((ih smaller ready).mono (fun _ hm => hm.within ?_)
            fun _ _ _ _ => trivial)
          refine Effect.tests_within (fun node mem x hb => ?_) (.inr rfl) fun flows => flows
          obtain rfl := List.mem_singleton.mp mem
          exact ⟨id, List.mem_singleton_self id, under.trans hb⟩
        | _ => exact whole
      | binary op lhs rhs =>
        obtain ⟨left, underLeft, smallLeft⟩ := arg lhs (by simp [Expr.slots])
        obtain ⟨right, underRight, smallRight⟩ := arg rhs (by simp [Expr.slots])
        cases op with
        | and =>
          exact Tracks.markTest (ih.branchLogical left right underLeft underRight smallLeft smallRight)
        | or =>
          exact Tracks.markTest (ih.branchLogical left right underLeft underRight smallLeft smallRight)
        | _ => exact whole
      | _ => exact whole

end Outset

end TreeCompiler
