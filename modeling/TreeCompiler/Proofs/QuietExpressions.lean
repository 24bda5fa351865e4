import TreeCompiler.Proofs.QuietTypes

/-!
# Expressions validated without a report

An expression whose parts are valid fails only with a report, a name apart: one that refers to a
local fails without a report if the type of the local is not known.
-/

namespace TreeCompiler

open Step Validation WorkM

/-! ### Steps that leave the tree alone -/

variable {α : Type} {left right : ConstId} {op : BinaryOp} {res : Option Typed}
  {lhs rhs : NodeId} {ans : Option NodeId} {req : Option ConstId}

namespace Validation

variable {w t : Work}

theorem grown_of_onPool {step : PoolM α} {v : α} (grows : PoolM.Grows step)
    (ran : onPool step w = .ok v t) : w.Grown t :=
  (Resolution.always_grown_onPool grows w).keeps w v t (.refl w) ran

theorem checkOperands_ok {id : NodeId} {fst : ConstId} {others : List ConstId}
    {ok : Bool} (ran : checkOperands id fst others left right w = .ok ok t) :
    ok = false ∧ t.Loud ∨ ok = true ∧ w = t ∧ left = right ∧ left ∈ fst :: others := by
  unfold checkOperands at ran
  dsimp only at ran
  split at ran
  · cases ran
    exact .inr ⟨rfl, rfl, ‹_›⟩
  · obtain ⟨expected, s, -, ran⟩ := bind_ok.mp ran
    obtain ⟨hf, mid, -, ran⟩ := bind_ok.mp ran
    obtain ⟨u, reported, rfl⟩ := bind_pure_ok.mp ran
    exact .inl ⟨rfl, Work.loud_of_reportAt reported⟩

theorem checkComparable_ok {id : NodeId} {ok : Bool}
    (ran : checkComparable id left right w = .ok ok t) :
    ok = false ∧ t.Loud ∨ ok = true ∧ w.Grown t := by
  obtain ⟨fit, s, ranFirst, ran⟩ := bind_ok.mp ran
  have fst := grown_of_onPool (grows_fit _ _) ranFirst
  split at ran
  · cases ran
    exact .inr ⟨rfl, fst⟩
  · obtain ⟨fit, mid, ranSecond, ran⟩ := bind_ok.mp ran
    split at ran
    · cases ran
      exact .inr ⟨rfl, fst.trans (grown_of_onPool (grows_fit _ _) ranSecond)⟩
    · obtain ⟨expected, u, -, ran⟩ := bind_ok.mp ran
      obtain ⟨hf, v, -, ran⟩ := bind_ok.mp ran
      obtain ⟨x, reported, rfl⟩ := bind_pure_ok.mp ran
      exact .inl ⟨rfl, Work.loud_of_reportAt reported⟩

/-- The types of operands that go together, and that of the result. -/
inductive Allows (int boolean string : ConstId) (w t : Work) : BinaryOp → ConstId → ConstId → ConstId → Prop
  | number {op : BinaryOp} (hp : op ∈ [.add, .sub, .mul, .div, .mod, .and, .or]) :
    Allows int boolean string w t op int int int
  | order {op : BinaryOp} {char ty : ConstId} (compares : op ∈ [.lt, .le, .gt, .ge])
    (made : onPool .charType w = .ok char t) (ordered : ty ∈ [int, char]) :
    Allows int boolean string w t op ty ty boolean
  | equality {op : BinaryOp} {left right : ConstId} (tests : op ∈ [.eq, .ne]) :
    Allows int boolean string w t op left right boolean
  | join {left right : ConstId} (text : left = string ∨ right = string) :
    Allows int boolean string w t .add left right string

/-- Operands that do not go together are reported. -/
abbrev TypesOperands (int boolean string : ConstId) (op : BinaryOp) (left right : ConstId)
    (w : Work) (res : Option ConstId) (t : Work) : Prop :=
  res = none ∧ t.Loud ∨
    w.Grown t ∧ ∃ ty, res = some ty ∧ Allows int boolean string w t op left right ty

theorem binaryType_ok {id : NodeId} {int boolean string : ConstId}
    {res : Option ConstId} (ran : binaryType id int boolean string op left right w = .ok res t) :
    TypesOperands int boolean string op left right w res t := by
  have arithmetic : op ∈ [.add, .sub, .mul, .div, .mod, .and, .or] → (do
      pure (if ← checkOperands id int [] left right then some int else none) :
        WorkM (Option ConstId)) w = .ok res t →
          TypesOperands int boolean string op left right w res t := by
    intro hp ran
    obtain ⟨ok, hc, rfl⟩ := bind_pure_ok.mp ran
    rcases checkOperands_ok hc with ⟨rfl, loud⟩ | ⟨rfl, rfl, rfl, isInt⟩
    · exact .inl ⟨rfl, loud⟩
    · rw [List.mem_singleton.mp isInt]
      exact .inr ⟨.refl _, int, rfl, .number hp⟩
  have ordered : op ∈ [.lt, .le, .gt, .ge] → (do
      let char ← onPool .charType
      pure (if ← checkOperands id int [char] left right then some boolean else none) :
        WorkM (Option ConstId)) w = .ok res t →
          TypesOperands int boolean string op left right w res t := by
    intro compares ran
    obtain ⟨char, fst, made, ran⟩ := bind_ok.mp ran
    obtain ⟨ok, hc, rfl⟩ := bind_pure_ok.mp ran
    rcases checkOperands_ok hc with ⟨rfl, loud⟩ | ⟨rfl, rfl, rfl, isOrdered⟩
    · exact .inl ⟨rfl, loud⟩
    · exact .inr ⟨grown_of_onPool (PoolM.grows_intern _) made, boolean, rfl, .order compares made isOrdered⟩
  have compared : op ∈ [.eq, .ne] → (do
      pure (if ← checkComparable id left right then some boolean else none) :
        WorkM (Option ConstId)) w = .ok res t →
          TypesOperands int boolean string op left right w res t := by
    intro tests ran
    obtain ⟨ok, hc, rfl⟩ := bind_pure_ok.mp ran
    rcases checkComparable_ok hc with ⟨rfl, loud⟩ | ⟨rfl, hg⟩
    · exact .inl ⟨rfl, loud⟩
    · exact .inr ⟨hg, boolean, rfl, .equality tests⟩
  cases op with
  | lt | le | gt | ge => exact ordered (by simp) ran
  | eq | ne => exact compared (by simp) ran
  | sub | mul | div | mod | and | or => exact arithmetic (by simp) ran
  | add =>
    have ran : (if left = string ∨ right = string then pure (some string) else do
        pure (if ← checkOperands id int [] left right then some int else none) :
          WorkM (Option ConstId)) w = .ok res t := ran
    split at ran
    · rename_i text
      cases ran
      exact .inr ⟨.refl _, string, rfl, .join text⟩
    · exact arithmetic (by simp) ran

theorem binaryConstant_grown {v : Option ConstId}
    (ran : binaryConstant op lhs rhs w = .ok v t) : w.Grown t := by
  replace ran := rest_ok ran rfl
  replace ran := rest_ok ran rfl
  generalize (w.tree.facts lhs).constant = left at ran
  generalize (w.tree.facts rhs).constant = right at ran
  split at ran
  · exact grown_of_onPool (grows_foldBinary _ _ _) ran
  · cases ran
    exact .refl _

theorem loud_modifyFacts (id : NodeId) (f : Facts → Facts) :
    Keeps Work.Loud (modifyFacts id f) := by
  intro w u t loud ran
  rw [← modifyFacts_ok.mp ran]
  exact loud

theorem loud_settleExpr (id : NodeId) (req : Option ConstId) (ty : ConstId)
    (k : Option ConstId) : Keeps Work.Loud (settleExpr id req ty k) := by
  refine Keeps.bind (loud_modifyFacts _ _) fun _ => ?_
  cases req with
  | none => exact Keeps.pure _
  | some req =>
    refine Keeps.bind (validationInvariant_loud.keeps_onPool (grows_fit _ _)) fun fit =>
      Keeps.bind (loud_modifyFacts _ _) fun _ => ?_
    split
    · exact Keeps.pure _
    · exact Keeps.bind (LookLogic.keeps.describe _) fun _ =>
        Keeps.bind (LookLogic.keeps.describe _) fun _ =>
          Keeps.bind (loudLogic.report _ _ _) fun _ => Keeps.pure _

end Validation

/-- A step that comes from `P` to `Q` unless something is reported, which is never taken back. -/
structure Hushed {α : Type} (P : Work → Prop) (step : WorkM α) (Q : α → Work → Prop) : Prop where
  loud : Keeps Work.Loud step
  holds : ∀ {w ans t}, P w → step w = .ok ans t → ¬t.Loud → Q ans t

namespace Hushed

variable {α β : Type} {P P' : Work → Prop} {Q Q' : α → Work → Prop} {R : β → Work → Prop} {step : WorkM α}

theorem pure {a : α} (h : ∀ w, P w → Q a w) : Hushed P (pure a) Q where
  loud := Keeps.pure a
  holds s ran _ := by
    obtain ⟨rfl, rfl⟩ := pure_ok.mp ran
    exact h _ s

theorem bind {f : α → WorkM β} (fst : Hushed P step Q) (rest : ∀ a, Hushed (Q a) (f a) R) :
    Hushed P (step >>= f) R where
  loud := Keeps.bind fst.loud fun a => (rest a).loud
  holds s ran quiet := by
    obtain ⟨a, mid, ranFirst, ran⟩ := bind_ok.mp ran
    exact (rest a).holds (fst.holds s ranFirst ((rest a).loud.quiet ran quiet)) ran quiet

theorem weaken (hushed : Hushed P step Q) (sooner : ∀ w, P' w → P w)
    (later : ∀ ans w, Q ans w → Q' ans w) : Hushed P' step Q' :=
  ⟨hushed.loud, fun s ran quiet => later _ _ (hushed.holds (sooner _ s) ran quiet)⟩

theorem look (keeps : ∀ P : Work → Prop, Keeps P step) : Hushed P step fun _ => P :=
  ⟨keeps _, fun s ran _ => keeps P _ _ _ s ran⟩

theorem seen {f : Tree → WorkM β}
    (rest : ∀ tree, Hushed (fun w => P w ∧ w.tree = tree) (f tree) R) :
    Hushed P (WorkM.tree >>= f) R where
  loud := Keeps.bind LookLogic.keeps.tree fun tree => (rest tree).loud
  holds {w _ _} s ran quiet := (rest w.tree).holds ⟨s, rfl⟩ (rest_ok ran rfl) quiet

theorem tree {f : Tree → WorkM β} (rest : ∀ tree, Hushed P (f tree) R) :
    Hushed P (WorkM.tree >>= f) R :=
  seen fun tree => (rest tree).weaken (fun _ s => s.1) fun _ _ done => done

theorem read {f : Facts → WorkM β} {id : NodeId}
    (rest : ∀ facts, Hushed (fun w => P w ∧ w.tree.facts id = facts) (f facts) R) :
    Hushed P (WorkM.facts id >>= f) R where
  loud := Keeps.bind (LookLogic.keeps.facts id) fun facts => (rest facts).loud
  holds {w _ _} s ran quiet := (rest (w.tree.facts id)).holds ⟨s, rfl⟩ (rest_ok ran rfl) quiet

theorem reported {f : Unit → WorkM β} {code : Code} {id : NodeId} {args : List String}
    (loud : ∀ u, Keeps Work.Loud (f u)) : Hushed P (reportAt code id args >>= f) R where
  loud := Keeps.bind (loudLogic.report code id args) loud
  holds _ ran quiet := by
    obtain ⟨u, mid, reported, ran⟩ := bind_ok.mp ran
    exact absurd (Work.loud_of_reportAt reported) ((loud u).quiet ran quiet)

end Hushed

namespace Outset

variable {o : Outset} {b w t : Work} {id c : NodeId} {done rest : List NodeId}
  {ok : Bool}

/-- A node that is no part of a type expression. -/
def Hosted (o : Outset) (id : NodeId) : Prop :=
  ∀ up, o.tree.Below o.root up → id ∈ o.tree.children up → o.tree.type? up = none

/-- How expressions are visited: one that is valid is stood for by what its parentheses hold. -/
structure SeesExprs (o : Outset) (validate : ExprValidator) : Prop where
  visit : ∀ {id req w ans t}, o.Turn id w → o.Scope w id → o.Hosted id →
    validate id req w = .ok ans t → ¬t.Loud →
    o.Visited id w ans.isSome t ∧ ∀ node, ans = some node →
      t.Valid node ∧ o.tree.Strips id node ∧ o.Plain node ∧ (o.tree.expr? id).isSome

theorem Fair.hosted (fair : o.Fair) (hb : o.tree.Below o.root id)
    (mem : c ∈ o.tree.children id) (hp : o.tree.type? id = none) : o.Hosted c := by
  intro up above hi
  rw [fair.parent_eq hb mem above hi]
  exact hp

theorem Fair.complete_of_expr (fair : o.Fair) (hb : o.tree.Below o.root id) {expr : Expr}
    (isExpr : o.tree.expr? id = some expr) : o.tree.completable id = true := by
  by_contra incomplete
  obtain ⟨text, bad⟩ := fair.complete id hb (by simpa using incomplete)
  rw [Tree.expr?_of_type _ bad] at isExpr
  simp at isExpr

namespace Amid

theorem onPool (fair : o.Fair) (ha : o.Amid id b done rest ok w)
    {step : PoolM α} {v : α} (grows : PoolM.Grows step)
    (ran : WorkM.onPool step w = .ok v t) : o.Amid id b done rest ok t :=
  ha.grown fair (grown_of_onPool grows ran)

/-- The visit has failed for a reason. -/
theorem fail (ha : o.Amid id b done rest ok w) (excused : o.Excused w) :
    o.Amid id b done rest false w :=
  { ha with
    valid := by simp
    fails := fun _ => excused }

end Amid

/-- What a step that visits the parts of a node in order ends with: if it finds what it looks for,
it is done with all of them. -/
def Finds (o : Outset) (id : NodeId) (b : Work) (got : Bool) (w : Work) : Prop :=
  ∃ done rest, o.Amid id b done rest got w ∧ (got = true → rest = [])

/-- A step that only adds to the pool. -/
theorem hushed_grown (fair : o.Fair) {step : WorkM α}
    (grows : ∀ {w ans t}, step w = .ok ans t → w.Grown t) :
    Hushed (o.Amid id b done rest ok) step fun _ => o.Amid id b done rest ok where
  loud _ _ _ loud ran := by
    obtain ⟨p, -, rfl⟩ := grows ran
    exact loud
  holds ha ran _ := ha.grown fair (grows ran)

theorem hushed_onPool (fair : o.Fair) {step : PoolM α} (grows : PoolM.Grows step) :
    Hushed (o.Amid id b done rest ok) (WorkM.onPool step) fun _ => o.Amid id b done rest ok :=
  hushed_grown fair (grown_of_onPool grows)

/-! ### Parts of an expression -/

section

variable (fair : o.Fair) {expr : Expr} (isExpr : o.tree.expr? id = some expr)
  (sc : o.Scope b id)

include fair isExpr sc

theorem Amid.exprScope (ha : o.Amid id b done (c :: rest) ok w) : o.Scope w c :=
  ha.scope fair sc (by simp [o.tree.stmt?_of_expr isExpr])

omit isExpr sc in
theorem finds_validateLiteral (ha : o.Amid id b done [] true w) {literal : Literal}
    (ran : validateLiteral literal w = .ok res t) :
    o.Finds id b res.isSome t ∧ ∃ ty v, res = some (ty, some v) := by
  obtain ⟨v, fst, interned, ran⟩ := bind_ok.mp ran
  obtain ⟨ty, typed, rfl⟩ := bind_pure_ok.mp ran
  have interned : WorkM.onPool (PoolM.intern literal.constant) w = .ok v fst := by
    cases literal <;> exact interned
  refine ⟨⟨done, [], ?_, fun _ => rfl⟩, ty, v, rfl⟩
  exact (ha.onPool fair (PoolM.grows_intern _) interned).onPool fair (PoolM.grows_typeOf v) typed

/-- What a name of a local or a constant knows. -/
def Names (w : Work) (id : NodeId) (k : Option ConstId) : Prop :=
  (∃ decl, (w.tree.facts id).binding = some (.localDecl decl) ∧ k = none ∧ (localType w.tree decl).isSome) ∨
    ∃ ty v, (w.tree.facts id).binding = some (.constant ty v) ∧ k = some v

omit isExpr in
/-- A name fails without a report only if it is excused. -/
theorem finds_validateName (ha : o.Amid id b done [] true w) {name : String}
    (isName : o.tree.expr? id = some (.name name))
    (ran : validateName id name w = .ok res t) (quiet : ¬t.Loud) : o.Finds id b res.isSome t ∧
      ∀ ty k, res = some (ty, k) → Names t id k := by
  replace ran := rest_ok ran rfl
  obtain ⟨binding, bound, refers⟩ := (ha.checked.answers id ha.below ha.kept
    (fair.complete_of_expr ha.below isName)).name name isName
  rw [bound] at ran
  cases binding with
  | localDecl decl =>
    cases ran
    have declared : o.Declared w decl :=
      ha.passes.scope sc id name decl .root isName refers (Tree.findLocal_of_localOf refers)
    cases hk : localType w.tree decl with
    | some ty =>
      refine ⟨⟨done, [], by simpa [hk] using ha, fun _ => rfl⟩, ?_⟩
      intro type' k he
      cases he
      exact .inl ⟨decl, bound, rfl, by simp [hk]⟩
    | none =>
      have excused : o.Excused w := by simpa [Declared, hk] using declared
      exact ⟨⟨done, [], by simpa [hk] using ha.fail excused, fun _ => rfl⟩, by simp⟩
  | constant ty v =>
    cases ran
    refine ⟨⟨done, [], ha, fun _ => rfl⟩, ?_⟩
    intro type' k he
    cases he
    exact .inr ⟨ty, v, bound, rfl⟩
  | type ty =>
    obtain ⟨u, ranReport, -⟩ := bind_pure_ok.mp ran
    exact absurd (Work.loud_of_reportAt ranReport) quiet
  | space space =>
    obtain ⟨u, ranReport, -⟩ := bind_pure_ok.mp ran
    exact absurd (Work.loud_of_reportAt ranReport) quiet

variable {validate : ExprValidator} (loud : Sound .any Work.Loud (fun _ _ => True) validate)
  (sees : o.SeesExprs validate)

include loud sees

/-- A part of an expression is visited. -/
theorem hushed_part (req : Option ConstId) :
    Hushed (o.Amid id b done (c :: rest) ok) (validate c req) fun hf =>
      o.Amid id b (done ++ [c]) rest (ok && hf.isSome) where
  loud := (loud trivial _).upheld.keeps
  holds ha ran quiet := by
    have mem : c ∈ o.tree.children id := by simp [ha.children]
    exact ha.visit fair (sees.visit (ha.turn fair) (ha.exprScope fair isExpr sc)
      (fair.hosted ha.below mem (Resolution.type?_eq_none_of_expr isExpr)) ran quiet).1

theorem finds_validateUnary {op : UnaryOp} {arg : NodeId} :
    Hushed (o.Amid id b [] [arg] true) (validateUnary validate op arg) fun res =>
      o.Finds id b res.isSome := by
  refine .bind (Q := fun _ => o.Amid id b [] [arg] true)
    (by cases op <;> exact hushed_onPool fair (PoolM.grows_intern _)) fun _ =>
      .bind (hushed_part fair isExpr sc loud sees _) fun hf => ?_
  cases hf with
  | none => exact .pure fun _ ha => ⟨_, [], ha, fun _ => rfl⟩
  | some node =>
    refine .bind (.look fun _ => LookLogic.keeps.facts _) fun facts => ?_
    split
    · exact .bind (hushed_onPool fair (grows_foldUnary op _)) fun _ =>
        .pure fun _ ha => ⟨_, [], ha, fun _ => rfl⟩
    · exact .pure fun _ ha => ⟨_, [], ha, fun _ => rfl⟩

theorem finds_validateLogical {boolean : ConstId} :
    Hushed (o.Amid id b [] [lhs, rhs] true) (validateLogical validate boolean op lhs rhs)
      fun res => o.Finds id b res.isSome := by
  refine .bind (hushed_part fair isExpr sc loud sees _) fun left =>
    .bind (hushed_part fair isExpr sc loud sees _) fun right => ?_
  match left, right with
  | none, _ | some _, none => exact .pure fun _ ha => ⟨_, [], by simpa using ha, fun _ => rfl⟩
  | some _, some _ =>
    refine .bind (.look fun _ => LookLogic.keeps.constantBool _) fun _ =>
      .bind (.look fun _ => LookLogic.keeps.constantBool _) fun _ => ?_
    split
    · exact .bind (hushed_onPool fair (PoolM.grows_intern _)) fun _ =>
        .pure fun _ ha => ⟨_, [], ha, fun _ => rfl⟩
    · exact .pure fun _ ha => ⟨_, [], ha, fun _ => rfl⟩

theorem finds_validateBinary : Hushed (o.Amid id b [] [lhs, rhs] true)
      (validateBinary validate id op lhs rhs) fun res => o.Finds id b res.isSome := by
  refine .bind (hushed_onPool fair (PoolM.grows_intern _)) fun int =>
    .bind (hushed_onPool fair (PoolM.grows_intern _)) fun boolean =>
    .bind (hushed_onPool fair (PoolM.grows_intern _)) fun string => ?_
  split
  · exact finds_validateLogical fair isExpr sc loud sees
  · refine .bind (hushed_part fair isExpr sc loud sees _) fun left =>
      .bind (hushed_part fair isExpr sc loud sees _) fun right => ?_
    match left, right with
    | none, _ | some _, none => exact .pure fun _ ha => ⟨_, [], by simpa using ha, fun _ => rfl⟩
    | some left, some right =>
      refine .bind (.look fun _ => LookLogic.keeps.operandTypes id left right) fun types =>
        .bind (Q := fun ty w => o.Amid id b [lhs, rhs] [] true w ∧ ty.isSome)
        ⟨loudLogic.binaryType _ _ _ _ _ _ _, fun ha ran quiet => ?_⟩ fun ty => ?_
      · obtain ⟨hg, ty, rfl, -⟩ := (binaryType_ok ran).resolve_left fun ⟨_, loud⟩ => quiet loud
        exact ⟨ha.grown fair hg, rfl⟩
      · cases ty with
        | none => exact .pure fun _ typed => absurd typed.2 (by simp)
        | some ty =>
          exact .bind ((hushed_grown fair binaryConstant_grown).weaken (fun _ typed => typed.1)
            fun _ _ ha => ha) fun _ => .pure fun _ ha => ⟨_, [], ha, fun _ => rfl⟩

/-- The elements of a tuple are visited in order. -/
theorem hushed_elements {es : List NodeId} {req : List (Option ConstId)} :
    Hushed (o.Amid id b done es ok) (validateElements validate es req)
      fun results => o.Amid id b (done ++ es) [] (ok && (allThere results).isSome) := by
  induction es generalizing done ok req with
  | nil => cases req <;> exact .pure fun _ ha => by simpa [allThere] using ha
  | cons elem es ih =>
    cases req <;> exact .bind (hushed_part fair isExpr sc loud sees _) fun res =>
      .bind ih fun _ => .pure fun _ ha => by cases res <;> simpa [allThere] using ha

theorem finds_validateTupleElements {declared : Option ConstId} {fields : Option (List ConstId)}
    {es : List NodeId} :
    Hushed (o.Amid id b done es true) (validateTupleElements validate declared fields es)
      fun res => o.Finds id b res.isSome := by
  refine .bind (hushed_elements fair isExpr sc loud sees) fun results => ?_
  split
  · rename_i missing
    exact .pure fun _ ha => ⟨_, [], by simpa [missing] using ha, fun _ => rfl⟩
  · rename_i hf
    refine Hushed.weaken (P := o.Amid id b (done ++ es) [] true)
      (.bind (.look fun _ => LookLogic.keeps.elementFacts _) fun ps => ?_)
      (fun _ ha => by simpa [hf] using ha) fun _ _ finds => finds
    have vals : ∀ ty, Hushed (o.Amid id b (done ++ es) [] true) (withValues ps ty)
        fun res => o.Finds id b res.isSome := by
      intro ty
      unfold withValues
      split
      · exact .bind (hushed_onPool fair (PoolM.grows_intern _)) fun _ =>
          .pure fun _ ha => ⟨_, [], ha, fun _ => rfl⟩
      · exact .pure fun _ ha => ⟨_, [], ha, fun _ => rfl⟩
    dsimp only
    split
    · exact vals _
    · exact .bind (hushed_onPool fair (PoolM.grows_intern _)) vals

theorem finds_validateTuple {validateType : NodeId → WorkM (Option ConstId)}
    (loudTypes : ∀ id, Keeps Work.Loud (validateType id)) (seesTypes : o.SeesTypes validateType)
    {ty : Option NodeId} {es : List NodeId} : Hushed (o.Amid id b [] (ty.toList ++ es) true)
      (validateTuple validate validateType id ty es req) fun res => o.Finds id b res.isSome := by
  cases ty with
  | none =>
    exact .bind (.look fun _ => LookLogic.keeps.tupleFields req) fun _ =>
      finds_validateTupleElements fair isExpr sc loud sees
  | some ty =>
    refine .bind (Q := fun (declared : Option ConstId) => o.Amid id b [ty] es declared.isSome)
      ⟨loudTypes ty, fun ha ran quiet =>
        ha.visit fair (seesTypes.visit (ha.turn fair) ran quiet).1⟩ fun declared => ?_
    cases declared with
    | none => exact .pure fun _ ha => ⟨_, _, ha, by simp⟩
    | some declared =>
      refine .bind (.look fun _ => LookLogic.keeps.tupleFields (some declared)) fun fields => ?_
      split
      · exact finds_validateTupleElements fair isExpr sc loud sees
      · exact .reported fun _ => Keeps.pure _

end

/-! ### Whole expressions -/

theorem holds_of_expr {expr : Expr} (isExpr : o.tree.expr? id = some expr)
    (children : ∀ c ∈ o.tree.children id, w.Valid c)
    (literal : ∀ literal, expr = .literal literal → (w.tree.facts id).constant.isSome)
    (name : ∀ name, expr = .name name → Names w id (w.tree.facts id).constant) : o.Holds w id := by
  have notType := Resolution.type?_eq_none_of_expr isExpr
  have notStmt := o.tree.stmt?_of_expr isExpr
  refine ⟨children, by simp [notType], fun v isLiteral => ?_, fun text isName => ?_,
    by simp [notStmt], by simp [notStmt], by simp [notStmt], by simp [notStmt]⟩
  · exact literal v (Option.some.inj (isExpr.symm.trans isLiteral))
  · exact name text (Option.some.inj (isExpr.symm.trans isName))

/-- Something is noted about an expression that leaves its stage, binding and jump alone. -/
theorem Amid.note (fair : o.Fair) (ha : o.Amid id b done rest ok w)
    (notType : o.tree.type? id = none) (f : Facts → Facts)
    (stage : ∀ facts, (f facts).stage = facts.stage)
    (binding : ∀ facts, (f facts).binding = facts.binding)
    (jump : ∀ facts, (f facts).jump = facts.jump) :
    o.Amid id b done rest ok (w.withTree (w.tree.modifyFacts id f)) := by
  have marks : o.Marks id w (w.withTree (w.tree.modifyFacts id f)) :=
    .modifyFacts id w binding jump
  refine ha.mark fair marks ((w.tree.stage_modify_of stage id).trans ha.now) ?_
  intro answers
  refine ⟨by simp [notType], fun name isName => ?_⟩
  rw [marks.binding]
  exact answers.name name isName

/-- A type and a value are noted, and a type that does not fit is reported. -/
theorem Amid.settles (fair : o.Fair) (ha : o.Amid id b done rest ok w)
    (notType : o.tree.type? id = none) {k : Option ConstId} {ty : ConstId}
    (ran : settleExpr id req ty k w = .ok ans t) (quiet : ¬t.Loud) :
    ans = some id ∧ o.Amid id b done rest ok t ∧
      (t.tree.facts id).constant = k ∧ o.Later w t := by
  have later : ∀ {last}, o.Marks id w last → o.Amid id b done rest ok last →
      o.Later w last := fun marks next =>
    (marks.passes ha.checked.unsent (by simp [next.now]) (fun _ => next.begun)
      fun past => absurd past ha.isOpen).toLater
  obtain ⟨u, fst, hn, ran⟩ := bind_ok.mp ran
  obtain rfl := modifyFacts_ok.mp hn
  have here := w.tree.facts_modify_same (fair.has ha.checked ha.below)
    fun facts => { facts with type := some ty, constant := k }
  have fst := ha.note fair notType (fun facts => { facts with type := some ty, constant := k })
    (fun _ => by rfl) (fun _ => by rfl) (fun _ => by rfl)
  have marks : o.Marks id w (w.withTree (w.tree.modifyFacts id
      fun facts => { facts with type := some ty, constant := k })) :=
    .modifyFacts id w (fun _ => by rfl) (fun _ => by rfl)
  cases req with
  | none =>
    obtain ⟨rfl, rfl⟩ := pure_ok.mp ran
    exact ⟨rfl, fst, by rw [Work.withTree_tree, here], later marks fst⟩
  | some req =>
    obtain ⟨fit, snd, compared, ran⟩ := bind_ok.mp ran
    have hg := grown_of_onPool (grows_fit ty req) compared
    obtain ⟨u, third, hn, ran⟩ := bind_ok.mp ran
    obtain rfl := modifyFacts_ok.mp hn
    have last := (fst.grown fair hg).note fair notType
      (fun facts => { facts with fit := some fit }) (fun _ => by rfl) (fun _ => by rfl)
      (fun _ => by rfl)
    split at ran
    · obtain ⟨rfl, rfl⟩ := pure_ok.mp ran
      refine ⟨rfl, last, ?_, later ((marks.trans (.of_grown id hg)).trans
        (.modifyFacts id snd (fun _ => by rfl) (fun _ => by rfl))) last⟩
      have kept : ((snd.tree.modifyFacts id fun facts => { facts with fit := some fit }).facts
          id).constant = (snd.tree.facts id).constant :=
        snd.tree.facts_modify_of Facts.constant (fun _ => by rfl) id id
      rw [Work.withTree_tree, kept, hg.tree, Work.withTree_tree, here]
    · obtain ⟨expected, s, -, ran⟩ := bind_ok.mp ran
      obtain ⟨hf, mid, -, ran⟩ := bind_ok.mp ran
      obtain ⟨u, reported, -⟩ := bind_pure_ok.mp ran
      exact absurd (Work.loud_of_reportAt reported) quiet

/-- An expression other than a parenthesised one ends as what its parts allow. -/
theorem Amid.settled (fair : o.Fair) {mid ended : Work} {typed : Option Typed} {expr : Expr}
    (isExpr : o.tree.expr? id = some expr) (hp : ∀ i, expr ≠ .paren i)
    (finds : ¬mid.Loud → o.Finds id b typed.isSome mid ∧ ∀ ty k, typed = some (ty, k) →
        (∀ literal, expr = .literal literal → k.isSome) ∧
        ∀ name, expr = .name name → Names mid id k) {res : Option NodeId}
    (ran : (match typed with
      | some (ty, k) => settleExpr id req ty k
      | none => pure none) mid = .ok res ended)
    (past : conclude id res ended = .ok ans t) (quiet : ¬t.Loud) :
    o.Visited id b ans.isSome t ∧ ∀ node, ans = some node →
      t.Valid node ∧ o.tree.Strips id node ∧ o.Plain node ∧ (o.tree.expr? id).isSome := by
  have notType := Resolution.type?_eq_none_of_expr isExpr
  have notStmt := o.tree.stmt?_of_expr isExpr
  have isPlain : o.Plain id := by
    intro i isParen
    exact hp i (Option.some.inj (isExpr.symm.trans isParen))
  have quietEnd : ¬ended.Loud := quiet_of_conclude past quiet
  cases typed with
  | none =>
    cases ran
    obtain ⟨⟨done, rest, ha, -⟩, -⟩ := finds quietEnd
    obtain ⟨rfl, seen, -⟩ := ha.concludes fair rfl (by simp) past
      (closes_of_stmt?_eq_none notStmt) (by simp) (by simp)
    exact ⟨seen, by simp⟩
  | some typed =>
    obtain ⟨ty, k⟩ := typed
    obtain ⟨⟨done, rest, ha, complete⟩, hk⟩ :=
      finds ((loud_settleExpr id req ty k).quiet ran quietEnd)
    obtain ⟨literal, name⟩ := hk ty k rfl
    obtain rfl := complete rfl
    obtain ⟨rfl, ha, hn, later⟩ := ha.settles fair notType ran quietEnd
    have h : o.Holds ended id := by
      refine holds_of_expr isExpr ?_ ?_ ?_
      · simpa [ha.children] using ha.valid rfl
      · intro v isLiteral
        rw [hn]
        exact literal v isLiteral
      · intro text isName
        unfold Names
        rw [hn, later.binding]
        exact (name text isName).imp_left fun ⟨decl, bound, varies, hk⟩ =>
          ⟨decl, bound, varies, later.locals decl hk⟩
    obtain ⟨rfl, seen, -⟩ := ha.concludes fair rfl
      (fun node eq => .inl (Option.some.inj eq).symm) past (closes_of_stmt?_eq_none notStmt)
      (fun _ => h) (fun _ _ _ _ _ => isPlain)
    refine ⟨seen, ?_⟩
    intro node eq
    cases eq
    exact ⟨seen.valid rfl, .self id, isPlain, by simp [isExpr]⟩

/-- What a parenthesised expression holds takes its place if it is valid and there is a parent. -/
theorem validateParen_ok {validate : ExprValidator} {i : NodeId}
    {res : Option NodeId} (ran : validateParen validate id i req w = .ok res t) :
    ∃ mid, validate i req w = .ok res mid ∧
      ((t = mid ∧ (res = none ∨ mid.tree.parent? id = none)) ∨
        ∃ node par, res = some node ∧ mid.tree.parent? id = some par ∧
          t = mid.withTree (mid.tree.replaceChild par id node).2) := by
  obtain ⟨ans, mid, hv, ran⟩ := bind_ok.mp ran
  replace ran := rest_ok ran rfl
  cases ans with
  | none =>
    obtain ⟨rfl, rfl⟩ := pure_ok.mp ran
    exact ⟨mid, hv, .inl ⟨rfl, .inl rfl⟩⟩
  | some node =>
    cases up : mid.tree.parent? id with
    | none =>
      rw [up] at ran
      obtain ⟨rfl, rfl⟩ := pure_ok.mp ran
      exact ⟨mid, hv, .inl ⟨rfl, .inr up⟩⟩
    | some par =>
      rw [up] at ran
      obtain ⟨swapped, replaced, rfl⟩ := bind_pure_ok.mp ran
      exact ⟨mid, hv, .inr ⟨node, par, rfl, up, (onTree_ok.mp replaced).2.symm⟩⟩

theorem Amid.peels (fair : o.Fair) {validate : ExprValidator} (sees : o.SeesExprs validate)
    {i : NodeId} (isParen : o.tree.expr? id = some (.paren i)) (sc : o.Scope b id)
    (hosted : o.Hosted id) (ha : o.Amid id b [] [i] true w) {res : Option NodeId}
    (ran : validateParen validate id i req w = .ok res t) (quiet : ¬t.Loud) :
    o.Amid id b [i] [] res.isSome t ∧
      (∀ node, res = some node → t.Valid node ∧ o.tree.Strips id node ∧ o.Plain node) ∧
      (res.isSome → ∀ x, o.tree.Below o.root x → id ∈ o.tree.children x →
        id ∉ t.tree.children x) := by
  obtain ⟨mid, hv, ended⟩ := validateParen_ok ran
  have mem : i ∈ o.tree.children id := by simp [ha.children]
  have quietMiddle : ¬mid.Loud := by
    rcases ended with ⟨rfl, -⟩ | ⟨node, par, -, -, rfl⟩ <;> exact quiet
  obtain ⟨seen, hst⟩ := sees.visit (ha.turn fair) (ha.exprScope fair isParen sc)
    (fair.hosted ha.below mem (Resolution.type?_eq_none_of_expr isParen)) hv quietMiddle
  have next : o.Amid id b [i] [] res.isSome mid := by
    simpa using ha.visit fair seen
  have hs : ∀ node, res = some node →
      mid.Valid node ∧ o.tree.Strips id node ∧ o.Plain node := by
    intro node eq
    obtain ⟨valid, hs, hp, isExpr⟩ := hst node eq
    obtain ⟨held, isHeld⟩ := Option.isSome_iff_exists.mp isExpr
    exact ⟨valid, .paren isParen (o.tree.stmt?_of_expr isHeld) hs, hp⟩
  have par : mid.tree.parent? id = o.tree.parent? id := by
    rw [seen.passes.parent id (fair.linked.not_below_child ha.below mem)]
    exact ha.parent (by simp)
  rw [par] at ended
  rcases ended with ⟨rfl, unplaced⟩ | ⟨node, par, rfl, up, he⟩
  · refine ⟨next, hs, fun some x hb hi => ?_⟩
    have none := unplaced.resolve_left (by rintro rfl; simp at some)
    rw [fair.linked.linked x id hb hi] at none
    simp at none
  · obtain ⟨above, hi, -⟩ := fair.linked.parent ha.below up
    obtain ⟨valid, stripped, hp⟩ := hs node rfl
    have only : ∀ x, o.tree.Below o.root x → id ∈ o.tree.children x → x = par :=
      fun x hb here => fair.parent_eq above hi hb here
    have under : o.tree.Below id node := stripped.isBelow .root
    have ne : id ≠ node := by
      rintro rfl
      exact hp i isParen
    by_cases standing : id ∈ mid.tree.children par
    · have replaced := next.replace fair (Resolution.type?_eq_none_of_expr isParen) up
        (hosted par above hi) under ne valid hp standing he
      have replaces : mid.tree.Replaces t.tree par id node := by
        rw [he]
        exact mid.tree.replaces_replaceChild ne standing
      refine ⟨replaced, fun x eq => ?_, fun _ x hb here => ?_⟩
      · cases eq
        exact ⟨(replaces.stage node).trans valid, stripped, hp⟩
      · rw [only x hb here, replaces.children_parent, List.mem_map]
        rintro ⟨old, -, swapped⟩
        split at swapped
        · exact ne swapped.symm
        · contradiction
    · have unchanged : t = mid := by
        rw [he]
        simp [Tree.replaceChild, ne, standing, Work.withTree]
      subst unchanged
      refine ⟨next, hs, fun _ x hb here => ?_⟩
      rw [only x hb here]
      exact standing

theorem sees_validateExprWithin (fair : o.Fair) (n : Nat) : o.SeesExprs (validateExprWithin n) := by
  induction n with
  | zero =>
    constructor
    intro id req w ans t _ _ _ ran
    simp [validateExprWithin] at ran
  | succ n ih =>
    constructor
    intro id req w ans t turn sc hosted ran quiet
    have loud : Sound .any Work.Loud (fun _ _ => True) (validateExprWithin n) :=
      validationInvariant_loud.checking.guided_validateExprWithin n
    rcases turn.once fair ran with ⟨rfl, rfl, left⟩ | ⟨begun, res, ended, ha, went, past⟩
    · exact ⟨turn.pass left, by simp⟩
    · have quietEnd : ¬ended.Loud := quiet_of_conclude past quiet
      replace went := rest_ok went rfl
      rw [show begun.tree.expr? id = o.tree.expr? id by
        simp only [Tree.expr?, ha.form (by simp)]] at went
      obtain ⟨expr, isExpr⟩ : ∃ expr, o.tree.expr? id = some expr := by
        apply Option.ne_none_iff_exists'.mp
        intro none
        simp [none] at went
      rw [o.tree.children_of_expr isExpr] at ha
      rw [isExpr] at went
      cases expr with
      | literal literal =>
        obtain ⟨typed, mid, hf, went⟩ := bind_ok.mp went
        refine Amid.settled fair isExpr (by simp) (fun _ => ?_) went past quiet
        obtain ⟨finds, ty, v, rfl⟩ := finds_validateLiteral fair ha hf
        refine ⟨finds, fun type' k eq => ⟨fun _ _ => ?_, by simp⟩⟩
        cases eq
        rfl
      | name name =>
        obtain ⟨typed, mid, hf, went⟩ := bind_ok.mp went
        refine Amid.settled fair isExpr (by simp) (fun quiet => ?_) went past quiet
        obtain ⟨finds, names⟩ := finds_validateName fair sc ha isExpr hf quiet
        exact ⟨finds, fun ty k eq => ⟨by simp, fun _ _ => names ty k eq⟩⟩
      | paren i =>
        obtain ⟨next, hst, hpl⟩ := ha.peels fair ih isExpr sc hosted went quietEnd
        have h : res.isSome = true → o.Holds ended id := fun some =>
          holds_of_expr isExpr (by simpa [next.children] using next.valid some) (by simp) (by simp)
        obtain ⟨rfl, seen, later⟩ := next.concludes fair rfl (fun node eq => .inr (hst node eq).1) past
          (closes_of_stmt?_eq_none (o.tree.stmt?_of_expr isExpr)) h
          (fun some x hb mem here => absurd here (hpl some x hb mem))
        refine ⟨seen, fun node eq => ?_⟩
        obtain ⟨valid, hs, hp⟩ := hst node eq
        exact ⟨later.valid valid, hs, hp, by simp [isExpr]⟩
      | unary op arg =>
        obtain ⟨typed, mid, hf, went⟩ := bind_ok.mp went
        refine Amid.settled fair isExpr (by simp) (fun quiet => ?_) went past quiet
        exact ⟨(finds_validateUnary fair isExpr sc loud ih).holds ha hf quiet, by simp⟩
      | binary op lhs rhs =>
        obtain ⟨typed, mid, hf, went⟩ := bind_ok.mp went
        refine Amid.settled fair isExpr (by simp) (fun quiet => ?_) went past quiet
        exact ⟨(finds_validateBinary fair isExpr sc loud ih).holds ha hf quiet, by simp⟩
      | tuple ty es =>
        obtain ⟨typed, mid, hf, went⟩ := bind_ok.mp went
        refine Amid.settled fair isExpr (by simp) (fun quiet => ?_) went past quiet
        exact ⟨(finds_validateTuple fair isExpr sc loud ih (fun c =>
          validationInvariant_loud.keeps_validateTypeWithin n trivial)
          (sees_validateTypeWithin fair n)).holds ha hf quiet, by simp⟩

end Outset

end TreeCompiler
