import TreeCompiler.Proofs.StepLogics
import TreeCompiler.Proofs.TreeChanges

/-!
# Validation that ends or stops

Validation is made of few basic steps: stages, types, values and fits are noted, diagnostics
reported, constants interned, jumps bound, and parenthesised expressions replaced by what they hold.
What these steps keep is kept by the whole of it, wherever it ends. An invariant may rely on where a
step is made, which a guide says in terms that do not change while the steps are made. It may also
say which ids stay in use while the pool changes: types and values are noted only if their ids are,
and constants are built only from such ids.
-/

namespace TreeCompiler

open Step

variable {w t : Work} {id : NodeId}

variable {ty : ConstId} {α β : Type} {lhs rhs : NodeId} {es nodes : List NodeId}
  {ps : List (ConstId × Option ConstId)}

/-- The constant of a literal. -/
def Literal.constant : Literal → Constant
  | .int v => .int v
  | .string v => .string v
  | .char v => .char v
  | .bool v => .bool v
  | .null => .null

/-- A node is known to be a truth value. -/
def Work.Knows (w : Work) (id : NodeId) (v : Bool) : Prop :=
  ∃ k, (w.tree.facts id).constant = some k ∧ w.pool.bool? k = .ok (some v)

/-- The facts of a statement that a jump goes to. -/
def Facts.marked (kind : JumpKind) (facts : Facts) : Facts :=
  match kind with
  | .breakOut => { facts with breakUsed := true }
  | .continueLoop => { facts with continueUsed := true }

/-- The work once a break or continue is bound to its target. -/
def Work.jumped (w : Work) (id : NodeId) (jump : Jump) : Work :=
  (w.withScope jump.target).withTree
    (((w.withScope jump.target).tree.modifyFacts jump.target (.marked jump.kind)).modifyFacts id
      fun facts => { facts with jump := some jump })

namespace Validation

/-- How the value of a constant expression is found from the values of its parts. A part is the node
that stands for the operand, and a value may have been folded in an earlier pool. -/
inductive Folded (stands : NodeId → NodeId → Prop) (w : Work) (id : NodeId) : Expr → ConstId → Prop
  | literal {literal : Literal} {v : ConstId}
      (interned : w.pool.entry? v = some (.value literal.constant)) :
      Folded stands w id (.literal literal) v
  | name {name : String} {ty v : ConstId}
      (bound : (w.tree.facts id).binding = some (.constant ty v)) :
      Folded stands w id (.name name) v
  | unary {op : UnaryOp} {arg node : NodeId} {i v : ConstId} {b t : Pool}
      (stood : stands arg node) (hk : (w.tree.facts node).constant = some i)
      (folded : foldUnary op i b = .ok (some v) t)
      (hg : w.pool.Extends t) :
      Folded stands w id (.unary op arg) v
  | logical {op : BinaryOp} {lhs rhs left right : NodeId} {leftValue rightValue : Option Bool}
      {ans : Bool} {v : ConstId} (logical : op.isLogical)
      (stoodLeft : stands lhs left) (stoodRight : stands rhs right)
      (knownLeft : ∀ hk, leftValue = some hk → w.Knows left hk)
      (knownRight : ∀ hk, rightValue = some hk → w.Knows right hk)
      (folded : foldLogical op leftValue rightValue = some ans)
      (interned : w.pool.entry? v = some (.value (.bool ans))) :
      Folded stands w id (.binary op lhs rhs) v
  | binary {op : BinaryOp} {lhs rhs left right : NodeId} {leftValue rightValue v : ConstId}
      {b t : Pool} (hp : op.isLogical = false)
      (stoodLeft : stands lhs left) (stoodRight : stands rhs right)
      (knownLeft : (w.tree.facts left).constant = some leftValue)
      (knownRight : (w.tree.facts right).constant = some rightValue)
      (folded : foldBinary op leftValue rightValue b = .ok (some v) t)
      (hg : w.pool.Extends t) :
      Folded stands w id (.binary op lhs rhs) v
  | tuple {ty : Option NodeId} {es nodes : List NodeId} {vals : List ConstId}
      {v : ConstId} (stood : List.Forall₂ stands es nodes)
      (hk : List.Forall₂ (fun node v => (w.tree.facts node).constant = some v) nodes vals)
      (interned : w.pool.entry? v = some (.value (.tuple vals))) :
      Folded stands w id (.tuple ty es) v

end Validation

/-- What a step leaves: a property of the work, and every id in use that was in use before. -/
structure Work.Upholds (P : Work → Prop) (Held : Pool → ConstId → Prop) (b t : Work) : Prop where
  holds : P t
  held : ∀ id, Held b.pool id → Held t.pool id

instance (P : Work → Prop) (Held : Pool → ConstId → Prop) :
    Trans (Work.Upholds P Held) (Work.Upholds P Held) (Work.Upholds P Held) where
  trans he later := ⟨later.holds, fun id held => later.held id (he.held id held)⟩

/-- A step that upholds a property wherever it is made. -/
def Step.Upheld {α : Type} (P : Work → Prop) (Held : Pool → ConstId → Prop) (step : WorkM α) : Prop :=
  ∀ ⦃w : Work⦄, P w → Goes (Work.Upholds P Held) step (fun _ _ => True) w

theorem Step.Upheld.always {α : Type} {P : Work → Prop} {Held : Pool → ConstId → Prop}
    {step : WorkM α} (upheld : Upheld P Held step) : Always P step := fun _ h => (upheld h).1.holds

theorem Step.Upheld.keeps {α : Type} {P : Work → Prop} {Held : Pool → ConstId → Prop}
    {step : WorkM α} (upheld : Upheld P Held step) : Keeps P step := upheld.always.keeps

/-- A step that also answers with an id in use, if with any. -/
abbrev Step.Gives (P : Work → Prop) (Held : Pool → ConstId → Prop) (step : WorkM (Option ConstId)) :
    Work → Prop :=
  Goes (Work.Upholds P Held) step fun ans t => ∀ got, ans = some got → Held t.pool got

namespace Validation

/-- What is found out about an expression is in use, and its value is folded. -/
def Rated (gd : Guide) (Held : Pool → ConstId → Prop) (id : NodeId) (expr : Expr) :
    Option Typed → Work → Prop
  | none, _ => True
  | some (ty, k), w => Held w.pool ty ∧ ∀ v, k = some v →
    Held w.pool v ∧ Folded gd.stands w id expr v

/-- A guide is borne out while a property holds. -/
structure Guide.Leads (gd : Guide) (P : Work → Prop) : Prop where
  child : ∀ {w id child}, P w → gd.visits id → child ∈ w.tree.children id → gd.visits child
  followed : ∀ {w id stmt child}, P w → gd.follows id → w.tree.stmt? id = some stmt →
    child ∈ stmt.children → gd.follows child
  visited : ∀ {id}, gd.follows id → gd.visits id
  held : ∀ {w id expr}, P w → gd.visits id → w.tree.expr? id = some expr → gd.holds id expr
  passed : ∀ {id}, gd.follows id → gd.passes id
  passes_form : ∀ {w id}, P w → gd.visits id → w.tree.stmt? id = none → gd.passes id
  passes_stage : ∀ {w id}, P w → (w.tree.stage id).hasReached .validated → gd.passes id
  passes_stands : ∀ {old new}, gd.stands old new → gd.passes new
  visits_stands : ∀ {old new}, gd.visits old → gd.stands old new → gd.visits new
  stands_self : ∀ {id}, gd.visits id → gd.passes id → gd.stands id id
  stands_paren : ∀ {id i new}, gd.visits id → gd.holds id (.paren i) →
    gd.stands i new → gd.stands id new

theorem Guide.Leads.visiting {Visits : NodeId → Prop} {P : Work → Prop}
    (c : ∀ {w : Work} {id c}, P w → Visits id → c ∈ w.tree.children id →
      Visits c) : (Guide.visiting Visits).Leads P where
  child := c
  followed h hfo hf mem := c h hfo (by rwa [Tree.children_of_stmt _ hf])
  visited hfo := hfo
  held _ _ _ := trivial
  passed _ := trivial
  passes_form _ _ _ := trivial
  passes_stage _ _ := trivial
  passes_stands _ := trivial
  visits_stands _ hs := hs
  stands_self visits _ := visits
  stands_paren _ _ hs := hs

theorem Guide.Leads.any {P : Work → Prop} : Guide.any.Leads P := .visiting fun _ _ _ => trivial

end Validation

/-- A step that finds out something about an expression. -/
abbrev Step.Rates (gd : Validation.Guide) (P : Work → Prop) (Held : Pool → ConstId → Prop)
    (id : NodeId) (expr : Expr) (step : WorkM (Option Validation.Typed)) : Work → Prop :=
  Goes (Work.Upholds P Held) step (Validation.Rated gd Held id expr)

/-- A step that answers with a node that may stand for another. -/
def Step.Guided (gd : Validation.Guide) (P : Work → Prop) (Held : Pool → ConstId → Prop)
    (id : NodeId) (step : WorkM (Option NodeId)) : Prop :=
  ∀ ⦃w : Work⦄, P w → Goes (Work.Upholds P Held) step (fun ans _ => ∀ node ∈ ans, gd.stands id node) w

/-- The parts of an expression are validated as a guide says. -/
abbrev Step.Sound (gd : Validation.Guide) (P : Work → Prop) (Held : Pool → ConstId → Prop)
    (validate : Validation.ExprValidator) : Prop :=
  ∀ {id}, gd.visits id → ∀ req, Guided gd P Held id (validate id req)

theorem Step.Guided.upheld {gd : Validation.Guide} {P : Work → Prop} {Held : Pool → ConstId → Prop}
    {step : WorkM (Option NodeId)} (guided : Guided gd P Held id step) : Upheld P Held step :=
  fun _ h => (guided h).answering fun _ _ _ _ => trivial

theorem Step.Guided.yields {gd : Validation.Guide} {P : Work → Prop} {Held : Pool → ConstId → Prop}
    {step : WorkM (Option NodeId)} (guided : Guided gd P Held id step) :
    Yields P (fun ans => ∀ node ∈ ans, gd.stands id node) step :=
  fun w ans t h ran =>
    ⟨guided.upheld.keeps w ans t h ran, (guided h).2 ans t ran⟩

/-- A property of the work that every basic step of validating expressions keeps where its guide
lets them be made, as long as the ids in use are kept in use. -/
structure ExpressionInvariant (gd : Validation.Guide) (P : Work → Prop)
    (Held : Pool → ConstId → Prop) : Prop extends gd.Leads P where
  type : ∀ {w id type}, P w → (w.tree.facts id).type = some type → Held w.pool type
  constant : ∀ {w id v}, P w → (w.tree.facts id).constant = some v → Held w.pool v
  bound : ∀ {w id type v}, P w → (w.tree.facts id).binding = some (.constant type v) →
    Held w.pool type ∧ Held w.pool v
  stage : ∀ w id stage, P w → gd.visits id → (stage.hasReached .validated → gd.passes id) →
    P (w.withTree (w.tree.setStage id stage))
  typed : ∀ w id expr type constant, P w → gd.visits id → gd.holds id expr →
    Validation.Rated gd Held id expr (some (type, constant)) w →
    P (w.withTree (w.tree.modifyFacts id fun facts =>
      { facts with type := some type, constant }))
  fitted : ∀ w id fit, P w → gd.visits id →
    P (w.withTree (w.tree.modifyFacts id fun facts => { facts with fit := some fit }))
  report : ∀ w diag, P w → P (w.reported diag)
  replace : ∀ w id i new up, P w → gd.visits id → gd.holds id (.paren i) →
    gd.stands i new → w.tree.parent? id = some up →
    P (w.withTree (w.tree.replaceChild up id new).2)
  resolved : ∀ {w} id, P w → gd.visits id → Gives P Held (Resolution.resolveType id) w
  intern : ∀ {w constant}, P w → (∀ c ∈ constant.children, Held w.pool c) →
    Goes (Work.Upholds P Held) (WorkM.onPool (.intern constant)) (fun id t => Held t.pool id) w
  canonical : ∀ id, Upheld P Held (WorkM.onPool (.canonical id))
  typeOf : ∀ {w} id, P w → Goes (Work.Upholds P Held) (WorkM.onPool (.typeOf id))
    (fun type t => Held t.pool type) w
  fit : ∀ actual req, Upheld P Held (WorkM.onPool (Validation.fit actual req))
  foldUnary : ∀ {w} op arg, P w → Gives P Held (WorkM.onPool (Validation.foldUnary op arg)) w
  foldBinary : ∀ {w} op left right, P w → Gives P Held (WorkM.onPool (Validation.foldBinary op left right)) w

theorem Resolution.isType_of_resolveType (done : Resolution.resolveType id w = .ok (some ty) t) :
    (w.tree.type? id).isSome := by
  replace done := rest_ok done rfl
  cases hf : w.tree.type? id with
  | some expr => rfl
  | none =>
    -- anything else is refused when its current type is asked for
    simp only [hf] at done
    obtain ⟨current, hl, asked, done⟩ := bind_ok.mp done
    obtain ⟨tree, eq, looked', asked⟩ := bind_ok.mp asked
    cases looked'
    obtain ⟨tree, eq, looked', asked⟩ := bind_ok.mp asked
    cases looked'
    simp only [hf] at asked
    split at asked
    · cases asked
      simp at done
    · simp at asked

namespace Validation

open WorkM

/-- What is known about the truth value of a node in a pool is known in every larger one. -/
theorem knows_of_constantBool {later : Work} {v : Option Bool}
    (hl : constantBool id w = .ok v t) (tree : later.tree = w.tree)
    (hg : later.pool.Extends w.pool) : w = t ∧ ∀ hk, v = some hk → later.Knows id hk := by
  replace hl := rest_ok hl rfl
  cases hf : (w.tree.facts id).constant with
  | none =>
    simp only [hf] at hl
    cases hl
    exact ⟨rfl, by simp⟩
  | some k =>
    simp only [hf] at hl
    obtain ⟨read, rfl⟩ := readPool_ok.mp hl
    refine ⟨rfl, ?_⟩
    rintro hk rfl
    exact ⟨k, by rw [tree]; exact hf, hg.bool? read⟩

/-- Looking at the types and values of elements changes nothing. -/
theorem elementFacts_ok (done : elementFacts nodes w = .ok ps t) :
    w = t ∧ List.Forall₂ (fun node part => (w.tree.facts node).type = some part.1 ∧
      (w.tree.facts node).constant = part.2) nodes ps := by
  induction nodes generalizing ps with
  | nil =>
    cases done
    exact ⟨rfl, .nil⟩
  | cons node rest ih =>
    replace done := rest_ok done rfl
    cases typed : (w.tree.facts node).type with
    | none => simp [typed] at done
    | some ty =>
      simp only [typed] at done
      obtain ⟨others, ran, rfl⟩ := bind_pure_ok.mp done
      obtain ⟨rfl, all⟩ := ih ran
      exact ⟨rfl, .cons ⟨typed, rfl⟩ all⟩

theorem mem_of_allThere {entries : List (Option α)} {got : List α} {a : α}
    (there : allThere entries = some got) (mem : a ∈ got) : some a ∈ entries := by
  induction entries generalizing got with
  | nil =>
    cases there
    simp at mem
  | cons entry rest ih =>
    cases entry with
    | none => simp [allThere] at there
    | some fst =>
      obtain ⟨others, isThere, rfl⟩ := Option.map_eq_some_iff.mp there
      rcases List.mem_cons.mp mem with rfl | mem
      · simp
      · exact List.mem_cons_of_mem _ (ih isThere mem)

theorem forall₂_of_allThere {entries : List (Option α)} {vals : List α}
    (there : allThere entries = some vals) :
    List.Forall₂ (fun entry v => entry = some v) entries vals := by
  induction entries generalizing vals with
  | nil =>
    cases there
    exact .nil
  | cons entry rest ih =>
    cases entry with
    | none => simp [allThere] at there
    | some entry =>
      obtain ⟨others, hf, rfl⟩ := Option.map_eq_some_iff.mp there
      exact .cons rfl (ih hf)

theorem forall₂_constants {look : NodeId → Option ConstId} {vals : List ConstId}
    (hl : List.Forall₂ (fun node part => look node = part.2) nodes ps)
    (there : List.Forall₂ (fun part v => part.2 = some v) ps vals) :
    List.Forall₂ (fun node v => look node = some v) nodes vals := by
  induction hl generalizing vals with
  | nil =>
    cases there
    exact .nil
  | cons he _ ih =>
    cases there with
    | cons hf rest => exact .cons (he.trans hf) (ih rest)

end Validation

namespace ExpressionInvariant

open WorkM Validation

variable {gd : Guide} {P : Work → Prop} {Held : Pool → ConstId → Prop}

theorem upholds_refl (h : P w) : w.Upholds P Held w := ⟨h, fun _ held => held⟩

theorem goes_pure {a : α} {Q : α → Work → Prop} (h : P w) (ans : Q a w) :
    Goes (Work.Upholds P Held) (pure a : WorkM α) Q w :=
  Goes.pure (upholds_refl h) ans

theorem upheld_pure (a : α) : Upheld P Held (pure a) := fun _ h => goes_pure h trivial

theorem upheld_throw (defect : Defect) : Upheld P Held (throw defect : WorkM α) :=
  fun _ h => Goes.throw (upholds_refl h)

theorem upheld_bind {step : WorkM α} {rest : α → WorkM β} (fst : Upheld P Held step)
    (hf : ∀ a, Upheld P Held (rest a)) : Upheld P Held (step >>= rest) :=
  fun _ h => Goes.bind (fst h) fun a _ hu _ => hf a hu.holds

theorem goes_unpooled {step : WorkM α} {a : α} {t : Work} (ran : step w = .ok a t)
    (h : P t) (eq : t.pool = w.pool) : Goes (Work.Upholds P Held) step (fun _ _ => True) w :=
  Goes.of_ok ran ⟨h, fun _ held => by rwa [eq]⟩ trivial

/-- Where no id is to be kept in use, a step only has to keep the property wherever it ends. -/
theorem goes_of_always {step : WorkM α} {Q : α → Work → Prop} (always : Always P step)
    (ans : ∀ a t, Q a t) (h : P w) : Goes (Work.Upholds P fun _ _ => True) step Q w :=
  ⟨⟨always _ h, fun _ _ => trivial⟩, fun a t _ => ans a t⟩

theorem upheld_tree : Upheld P Held WorkM.tree := fun _ h => goes_unpooled rfl h rfl

theorem upheld_stage (id : NodeId) : Upheld P Held (WorkM.stage id) :=
  fun _ h => goes_unpooled rfl h rfl

theorem upheld_describe (id : ConstId) : Upheld P Held (describe id) :=
  fun _ h => goes_unpooled rfl h rfl

theorem upheld_readPool (look : Pool → Except PoolError α) : Upheld P Held (readPool look) := by
  intro w h
  cases hf : look w.pool with
  | ok a => exact goes_unpooled (readPool_ok.mpr ⟨hf, rfl⟩) h rfl
  | error error =>
    exact Goes.of_error (readPool_of_error hf) (upholds_refl h)

theorem looks : LookLogic (Upheld P Held) :=
  ⟨upheld_pure, upheld_throw, upheld_bind, upheld_tree, upheld_describe, upheld_readPool⟩

variable (inv : ExpressionInvariant gd P Held)

include inv

theorem upheld_setStage (visits : gd.visits id) {stage : Stage}
    (allowed : stage.hasReached .validated → gd.passes id) : Upheld P Held (setStage id stage) :=
  fun _ h => goes_unpooled rfl (inv.stage _ id stage h visits allowed) rfl

theorem upheld_reportAt (code : Code) (id : NodeId) (args : List String) :
    Upheld P Held (reportAt code id args) :=
  fun _ h => goes_unpooled rfl (inv.report _ _ h) rfl

theorem steps : StepLogic (Upheld P Held) where
  toLookLogic := looks
  report := inv.upheld_reportAt
  named name w h := (inv.intern h (by simp [Constant.children, TypeConstant.children])).answering
    fun _ _ _ _ => trivial
  canonical := inv.canonical
  fit := inv.fit

/-- A constant made of ids in use is interned, and nothing else changes. -/
theorem goes_intern {k : Constant} (h : P w) (held : ∀ c ∈ k.children, Held w.pool c) :
    Goes (Work.Upholds P Held) (onPool (.intern k)) (fun v t => Held t.pool v ∧
      t.pool.entry? v = some (.value k) ∧ t.tree = w.tree ∧ t.pool.Extends w.pool) w := by
  refine (inv.intern h held).withRun.answering fun v t _ ⟨heldValue, ran⟩ => ⟨heldValue, ?_⟩
  obtain ⟨p, added, rfl⟩ := onPool_ok.mp ran
  have interned := modifyGet_ok.mp added
  have entry := Pool.Extends.entry?_intern w.pool k
  have hg := Pool.Extends.intern w.pool k
  rw [interned] at entry hg
  exact ⟨entry, rfl, hg⟩

theorem goes_start (visits : gd.visits id) (h : P w) :
    Goes (Work.Upholds P Held) (start id) (fun he _ => ∀ res, he = some res →
      ∀ node ∈ res, node = id ∧ gd.stands id node) w := by
  refine goes_stage ?_
  split
  · exact goes_pure h (by simp)
  · split
    · rename_i hr
      refine goes_pure h ?_
      rintro _ ⟨rfl⟩ node ⟨rfl⟩
      exact ⟨rfl, inv.stands_self visits (inv.passes_stage h hr)⟩
    · refine Goes.bind (inv.upheld_setStage visits ?_ h) fun _ _ hu _ =>
        goes_pure hu.holds (by simp)
      exact fun hr => absurd hr (by decide)

theorem goes_conclude (visits : gd.visits id) {res : Option NodeId}
    (allowed : ∀ node ∈ res, gd.stands id node ∧ gd.passes id) (h : P w) :
    Goes (Work.Upholds P Held) (conclude id res) (fun ans _ => ans = res) w := by
  cases res with
  | none =>
    refine Goes.bind (inv.upheld_setStage visits ?_ h) fun _ _ hu _ =>
      goes_pure hu.holds rfl
    exact fun hr => absurd hr (by decide)
  | some node =>
    obtain ⟨hs, passes⟩ := allowed node rfl
    refine Goes.bind (inv.upheld_setStage (inv.visits_stands visits hs) (fun _ =>
      inv.passes_stands hs) h) fun _ _ hu _ => ?_
    split
    · exact Goes.bind (inv.upheld_setStage visits (fun _ => passes) hu.holds) fun _ _ hu _ =>
        goes_pure hu.holds rfl
    · exact goes_pure hu.holds rfl

theorem guided_once (visits : gd.visits id) {validate : WorkM (Option NodeId)}
    (goes : ∀ {now : Work}, P now → Goes (Work.Upholds P Held) validate (fun res _ =>
      ∀ node ∈ res, gd.stands id node ∧ gd.passes id) now) :
    Guided gd P Held id (once id validate) := by
  refine fun w h => Goes.bind (inv.goes_start visits h) fun he now hu stood => ?_
  cases he with
  | some done => exact goes_pure hu.holds fun node mem => (stood _ rfl node mem).2
  | none =>
    refine Goes.bind (goes hu.holds) fun res t hu allowed =>
      (inv.goes_conclude visits allowed hu.holds).answering fun ans _ _ eq => ?_
    subst eq
    exact fun node mem => (allowed node mem).1

/-! ### Types -/

theorem passes_resolveType (h : P w) (visits : gd.visits id)
    (done : Resolution.resolveType id w = .ok (some ty) t) : gd.passes id := by
  refine inv.passes_form h visits ?_
  obtain ⟨expr, hf⟩ := Option.isSome_iff_exists.mp (Resolution.isType_of_resolveType done)
  exact w.tree.stmt?_of_type hf

theorem goes_validateTypeWithin (n : Nat) (visits : gd.visits id) (h : P w) :
    Gives P Held (validateTypeWithin n id) w := by
  induction n generalizing id w with
  | zero => exact Goes.throw (upholds_refl h)
  | succ n ih =>
    have children : ∀ ids, (∀ c ∈ ids, gd.visits c) → Upheld P Held
        (checkAll (fun c => do pure (← validateTypeWithin n c).isSome) ids) :=
      fun _ seen => looks.checkAll fun c mem => upheld_bind (fun _ h =>
        (ih (seen c mem) h).answering fun _ _ _ _ => trivial)
        fun _ => upheld_pure _
    refine Goes.bind (inv.guided_once visits (fun h => goes_tree (Goes.bind (children _
      (fun _ => inv.child h visits) h) fun ok snd hu _ => ?_)) h)
      fun res t hu _ => ?_
    · split
      · refine Goes.bind (inv.resolved id hu.holds visits).withRun fun ty last hfu ⟨_, ran⟩ =>
          goes_pure hfu.holds fun node isNode => ?_
        obtain ⟨_, rfl, rfl⟩ := Option.map_eq_some_iff.mp isNode
        have passes := inv.passes_resolveType hu.holds visits ran
        exact ⟨inv.stands_self visits passes, passes⟩
      · exact goes_pure hu.holds (by simp)
    · cases res with
      | none => exact goes_pure hu.holds (by simp)
      | some node =>
        exact Goes.of_ok rfl (upholds_refl hu.holds) fun hf hn => inv.type hu.holds hn

/-! ### Expressions -/

theorem rates_validateLiteral (id : NodeId) (literal : Literal) (h : P w) :
    Rates gd P Held id (.literal literal) (validateLiteral literal) w := by
  have interned : Goes (Work.Upholds P Held) (onPool <| match literal with
      | .int v => .int v
      | .string v => .string v
      | .char v => .char v
      | .bool v => .bool v
      | .null => .null) (fun v t => Held t.pool v ∧
        t.pool.entry? v = some (.value literal.constant) ∧ t.tree = w.tree ∧
        t.pool.Extends w.pool) w := by
    cases literal <;> exact inv.goes_intern h (by simp [Constant.children])
  refine Goes.bind interned fun v mid hu ⟨held, entry, _⟩ =>
    Goes.bind (inv.typeOf v hu.holds).withRun fun ty t hf ⟨heldType, typed⟩ =>
    goes_pure hf.holds ⟨heldType, ?_⟩
  rintro _ ⟨rfl⟩
  obtain ⟨later, typing, rfl⟩ := onPool_ok.mp typed
  have hg := PoolM.grows_typeOf v mid.pool mid.pool (Pool.Extends.refl _)
  rw [typing] at hg
  exact ⟨hf.held v held, .literal (hg.holds v _ entry)⟩

theorem rates_validateName (id : NodeId) (name : String) (h : P w) :
    Rates gd P Held id (.name name) (validateName id name) w := by
  have refuses : Rates gd P Held id (.name name)
      (reportAt .notAValue id [name] >>= fun _ => pure none : WorkM (Option Typed)) w :=
    Goes.bind (inv.upheld_reportAt _ _ _ h) fun _ _ hu _ =>
      goes_pure hu.holds trivial
  refine goes_tree ?_
  split
  · rename_i decl _
    refine goes_pure h ?_
    cases hf : localType w.tree decl with
    | none => trivial
    | some ty =>
      -- whichever node gives the type, it is noted there
      have hn := (Option.ite_none_right_eq_some.mp hf).2
      exact ⟨inv.type h hn, by simp⟩
  · rename_i ty v bound
    have held := inv.bound h bound
    refine goes_pure h ⟨held.1, ?_⟩
    rintro _ ⟨rfl⟩
    exact ⟨held.2, .name bound⟩
  · exact refuses
  · exact refuses
  · exact Goes.throw (upholds_refl h)

theorem goes_binaryType (id : NodeId) {int boolean string : ConstId} (op : BinaryOp)
    (left right : ConstId) (h : P w) (heldInt : Held w.pool int)
    (heldBoolean : Held w.pool boolean) (heldString : Held w.pool string) :
    Gives P Held (binaryType id int boolean string op left right) w := by
  -- whatever is checked, the answer is a type that was in use before
  have checks : ∀ {now : Work} {check : WorkM Bool} {ans : ConstId}, P now →
      Held now.pool ans → Upheld P Held check →
      Gives P Held (do pure (if ← check then some ans else none)) now := by
    intro now check ans h held upheld
    refine Goes.bind (upheld h) fun ok t hu _ =>
      goes_pure hu.holds fun hf isFound => ?_
    split at isFound
    · cases isFound
      exact hu.held _ held
    · simp at isFound
  have ordered : Gives P Held (do
      let char ← onPool .charType
      pure (if ← checkOperands id int [char] left right then some boolean else none)) w :=
    Goes.bind (inv.intern h (by simp [Constant.children, TypeConstant.children]))
      fun char now hu _ => checks hu.holds (hu.held _ heldBoolean)
        (inv.steps.checkOperands _ _ _ _ _)
  have numeric := checks h heldInt (inv.steps.checkOperands id int [] left right)
  have compared := checks h heldBoolean (inv.steps.checkComparable id left right)
  unfold binaryType
  split
  · exact ordered
  · exact ordered
  · exact ordered
  · exact ordered
  · exact compared
  · exact compared
  · split
    · refine goes_pure h fun hf isFound => ?_
      cases isFound
      exact heldString
    · exact numeric
  all_goals exact numeric

theorem goes_binaryConstant {op : BinaryOp} (hp : op.isLogical = false) {left right : NodeId}
    (stoodLeft : gd.stands lhs left) (stoodRight : gd.stands rhs right) (h : P w) :
    Goes (Work.Upholds P Held) (binaryConstant op left right)
    (fun hf t => ∀ v, hf = some v → Held t.pool v ∧
        Folded gd.stands t id (.binary op lhs rhs) v) w := by
  refine goes_facts (goes_facts ?_)
  split
  · rename_i leftValue rightValue knownLeft knownRight
    refine (inv.foldBinary op _ _ h).withRun.answering fun hf t _ ⟨held, ran⟩ v eq =>
      ⟨held v eq, ?_⟩
    subst eq
    obtain ⟨p, folded, rfl⟩ := onPool_ok.mp ran
    exact .binary hp stoodLeft stoodRight knownLeft knownRight folded (.refl _)
  · exact goes_pure h (by simp)

section

variable {validate : ExprValidator} (sound : Sound gd P Held validate)

include sound

/-- The type that an operator asks for. -/
def operandType : UnaryOp → PoolM ConstId
  | .not => .booleanType
  | .neg => .intType

theorem rates_validateUnary (id : NodeId) (op : UnaryOp) {arg : NodeId}
    (visits : gd.visits arg) (h : P w) :
    Rates gd P Held id (.unary op arg) (validateUnary validate op arg) w := by
  have typed : Goes (Work.Upholds P Held) (onPool (operandType op)) (fun id t => Held t.pool id) w := by
    cases op <;> exact inv.intern h (by simp [Constant.children, TypeConstant.children])
  refine Goes.bind typed fun ty fst upholdsFirst held =>
    Goes.bind (sound visits (some ty) upholdsFirst.holds) fun ans snd hu stood => ?_
  have heldType := hu.held ty held
  cases ans with
  | none => exact goes_pure hu.holds trivial
  | some node =>
    refine goes_facts ?_
    split
    · rename_i i hk
      refine Goes.bind (inv.foldUnary op i hu.holds).withRun
        fun folded t hf kept => goes_pure hf.holds
          ⟨hf.held ty heldType, fun v eq => ⟨kept.1 v eq, ?_⟩⟩
      subst eq
      obtain ⟨p, folded, rfl⟩ := onPool_ok.mp kept.2
      exact .unary (stood node rfl) hk folded (.refl _)
    · exact goes_pure hu.holds ⟨heldType, by simp⟩

theorem rates_validateLogical (id : NodeId) {boolean : ConstId} {op : BinaryOp}
    (logical : op.isLogical) (visitsLeft : gd.visits lhs) (visitsRight : gd.visits rhs) (h : P w)
    (held : Held w.pool boolean) :
    Rates gd P Held id (.binary op lhs rhs) (validateLogical validate boolean op lhs rhs) w := by
  refine Goes.bind (sound visitsLeft _ h) fun left fst upholdsFirst stoodLeft =>
    Goes.bind (sound visitsRight _ upholdsFirst.holds) fun right snd upholdsSecond stoodRight => ?_
  have heldSecond := upholdsSecond.held _ (upholdsFirst.held _ held)
  split
  · rename_i left right
    refine Goes.bind (looks.constantBool left upholdsSecond.holds).withRun
      fun leftValue third upholdsThird ⟨_, askedLeft⟩ => ?_
    obtain ⟨rfl, -⟩ := knows_of_constantBool askedLeft rfl (.refl _)
    refine Goes.bind (looks.constantBool right upholdsThird.holds).withRun
      fun rightValue fourth upholdsFourth ⟨_, askedRight⟩ => ?_
    obtain ⟨rfl, -⟩ := knows_of_constantBool askedRight rfl (.refl _)
    split
    · rename_i ans folded
      refine Goes.bind (inv.goes_intern upholdsSecond.holds (by simp [Constant.children]))
        fun v t hu ⟨heldValue, entry, tree, hg⟩ =>
        goes_pure hu.holds ⟨hu.held _ heldSecond, ?_⟩
      rintro _ ⟨rfl⟩
      exact ⟨heldValue, .logical logical (stoodLeft left rfl) (stoodRight right rfl)
        (knows_of_constantBool askedLeft tree hg).2 (knows_of_constantBool askedRight tree hg).2
        folded entry⟩
    · exact goes_pure upholdsSecond.holds ⟨heldSecond, by simp⟩
  · exact goes_pure upholdsSecond.holds trivial

theorem rates_validateBinary (id : NodeId) (op : BinaryOp) (visitsLeft : gd.visits lhs)
    (visitsRight : gd.visits rhs) (h : P w) :
    Rates gd P Held id (.binary op lhs rhs) (validateBinary validate id op lhs rhs) w := by
  have hn : ∀ {now : Work} (name : String), P now → Goes (Work.Upholds P Held)
      (onPool (.namedType name)) (fun id t => Held t.pool id) now :=
    fun name h => inv.intern h (by simp [Constant.children, TypeConstant.children])
  refine Goes.bind (hn _ h) fun int fst upholdsFirst heldInt =>
    Goes.bind (hn _ upholdsFirst.holds) fun boolean snd upholdsSecond heldBoolean =>
    Goes.bind (hn _ upholdsSecond.holds) fun string third upholdsThird heldString => ?_
  have heldInt := upholdsThird.held _ (upholdsSecond.held _ heldInt)
  have heldBoolean := upholdsThird.held _ heldBoolean
  split
  · rename_i logical
    exact inv.rates_validateLogical sound id logical visitsLeft visitsRight upholdsThird.holds heldBoolean
  · rename_i hp
    refine Goes.bind (sound visitsLeft _ upholdsThird.holds) fun left fourth upholdsFourth stoodLeft =>
      Goes.bind (sound visitsRight _ upholdsFourth.holds) fun right fifth upholdsFifth stoodRight => ?_
    split
    · rename_i left right
      refine Goes.bind (looks.operandTypes id left right upholdsFifth.holds)
        fun types sixth upholdsSixth _ => ?_
      have carry : ∀ id, Held third.pool id → Held sixth.pool id := fun id held =>
        upholdsSixth.held id (upholdsFifth.held id (upholdsFourth.held id held))
      refine Goes.bind (inv.goes_binaryType id op _ _ upholdsSixth.holds (carry _ heldInt)
        (carry _ heldBoolean) (carry _ heldString)) fun ty seventh upholdsSeventh heldType => ?_
      split
      · exact Goes.bind (inv.goes_binaryConstant (by simpa using hp) (stoodLeft left rfl)
          (stoodRight right rfl) upholdsSeventh.holds) fun v t hu folded =>
            goes_pure hu.holds ⟨hu.held _ (heldType _ rfl), folded⟩
      · exact goes_pure upholdsSeventh.holds trivial
    · exact goes_pure upholdsFifth.holds trivial

omit inv in
theorem goes_validateElements (req : List (Option ConstId))
    (visits : ∀ elem ∈ es, gd.visits elem) (h : P w) :
    Goes (Work.Upholds P Held) (validateElements validate es req) (fun results _ =>
      ∀ nodes, allThere results = some nodes → List.Forall₂ gd.stands es nodes) w := by
  induction es generalizing req w with
  | nil => exact goes_pure h (by simp [allThere])
  | cons elem rest ih =>
    have stoodAll : ∀ {res : Option NodeId}, (∀ node ∈ res, gd.stands elem node) →
        ∀ {results}, (∀ nodes, allThere results = some nodes → List.Forall₂ gd.stands rest nodes) →
        ∀ nodes, allThere (res :: results) = some nodes →
          List.Forall₂ gd.stands (elem :: rest) nodes := by
      intro res stood results ih nodes there
      cases res with
      | none => simp [allThere] at there
      | some node =>
        obtain ⟨others, hf, rfl⟩ := Option.map_eq_some_iff.mp there
        exact .cons (stood node rfl) (ih others hf)
    cases req <;> exact Goes.bind (sound (visits elem (by simp)) _ h)
      fun res _ hu stood => Goes.bind (ih _ (fun x mem => visits x (by simp [mem]))
        hu.holds) fun results _ hu all => goes_pure hu.holds (stoodAll stood all)

omit sound in
theorem held_of_noted (h : P w) (hn : List.Forall₂ (fun node part =>
    (w.tree.facts node).type = some part.1 ∧ (w.tree.facts node).constant = part.2) nodes ps) :
    ∀ part ∈ ps, Held w.pool part.1 ∧ ∀ v, part.2 = some v → Held w.pool v := by
  induction hn with
  | nil => simp
  | cons facts _ ih =>
    simp only [List.mem_cons, forall_eq_or_imp]
    exact ⟨⟨inv.type h facts.1, fun v eq => inv.constant h (facts.2.trans eq)⟩, ih⟩

theorem rates_validateTupleElements (id : NodeId) (ty : Option NodeId) (declared : Option ConstId)
    (fields : Option (List ConstId)) (visits : ∀ elem ∈ es, gd.visits elem)
    (h : P w) (held : ∀ ty, declared = some ty → Held w.pool ty) : Rates gd P Held id (.tuple ty es)
      (validateTupleElements validate declared fields es) w := by
  refine Goes.bind (goes_validateElements sound _ visits h) fun results fst hu stood => ?_
  split
  · exact goes_pure hu.holds trivial
  · rename_i nodes there
    refine Goes.bind (looks.elementFacts nodes hu.holds).withRun fun entries snd _ hl => ?_
    obtain ⟨rfl, hn⟩ := elementFacts_ok hl.2
    have heldEntries := inv.held_of_noted hu.holds hn
    -- the type is the declared one or that of the elements, and their values are built on it
    have vals : ∀ {now : Work} (got : ConstId), P now → now.tree = fst.tree →
        (∀ id, Held fst.pool id → Held now.pool id) → Held now.pool got →
        Rates gd P Held id (.tuple ty es) (withValues entries got) now := by
      intro now got h eq carry heldType
      unfold withValues
      split
      · rename_i vals hk
        have heldValues : ∀ v ∈ vals, Held now.pool v := by
          intro v mem
          obtain ⟨entry, hi, isValue⟩ := List.mem_map.mp (mem_of_allThere hk mem)
          exact carry v ((heldEntries entry hi).2 v isValue)
        refine Goes.bind (inv.goes_intern h heldValues) fun v t hu kept =>
          goes_pure hu.holds ⟨hu.held got heldType, ?_⟩
        obtain ⟨heldValue, entry, tree, -⟩ := kept
        rintro _ ⟨rfl⟩
        refine ⟨heldValue, .tuple (stood nodes there) ?_ entry⟩
        rw [tree, eq]
        exact forall₂_constants (hn.imp fun _ _ facts => facts.2)
          (List.forall₂_map_left_iff.mp (forall₂_of_allThere hk))
      · exact goes_pure h ⟨heldType, by simp⟩
    dsimp only
    split
    · rename_i got
      exact vals got hu.holds rfl (fun _ held => held) (hu.held _ (held _ rfl))
    · refine Goes.bind (inv.goes_intern hu.holds ?_) fun got t hf kept =>
        vals got hf.holds kept.2.2.1 hf.held kept.1
      intro c mem
      obtain ⟨entry, hi, rfl⟩ := List.mem_map.mp mem
      exact (heldEntries entry hi).1

theorem rates_validateTuple (n : Nat) (id : NodeId) {ty : Option NodeId}
    (visitsType : ∀ node ∈ ty, gd.visits node)
    (visits : ∀ elem ∈ es, gd.visits elem) (req : Option ConstId) (h : P w) :
    Rates gd P Held id (.tuple ty es)
      (validateTuple validate (validateTypeWithin n) id ty es req) w := by
  cases ty with
  | none =>
    exact Goes.bind (looks.tupleFields _ h) fun fields now hu _ =>
      inv.rates_validateTupleElements sound id none none fields visits hu.holds (by simp)
  | some typeNode =>
    refine Goes.bind (inv.goes_validateTypeWithin n (visitsType typeNode rfl) h)
      fun declared fst upholdsFirst held => ?_
    split
    · exact goes_pure upholdsFirst.holds trivial
    · refine Goes.bind (looks.tupleFields _ upholdsFirst.holds) fun fields snd upholdsSecond _ => ?_
      split
      · refine inv.rates_validateTupleElements sound id _ _ fields visits upholdsSecond.holds ?_
        rintro _ ⟨rfl⟩
        exact upholdsSecond.held _ (held _ rfl)
      · exact Goes.bind (inv.upheld_reportAt _ _ _ upholdsSecond.holds) fun _ _ hu _ =>
          goes_pure hu.holds trivial

/-- A parenthesised expression is stood for by what stands for the inner one. -/
theorem guided_validateParen {i : NodeId} (visits : gd.visits id)
    (visitsInner : gd.visits i) (holdsInner : gd.holds id (.paren i))
    (req : Option ConstId) : Guided gd P Held id (validateParen validate id i req) := by
  refine fun w h => Goes.bind (sound visitsInner req h) fun res now hu stood => goes_tree ?_
  have standsAll : ∀ node ∈ res, gd.stands id node := fun node mem =>
    inv.stands_paren visits holdsInner (stood node mem)
  split
  · rename_i node up lk
    exact Goes.bind (goes_unpooled rfl (inv.replace now id i node up hu.holds visits
      holdsInner (stood node rfl) lk) rfl) fun _ _ hf _ => goes_pure hf.holds standsAll
  · exact goes_pure hu.holds standsAll

end

/-- An expression whose type is found stands for itself. -/
theorem goes_settleExpr {expr : Expr} (visits : gd.visits id) (holdsExpr : gd.holds id expr)
    (passes : gd.passes id) (req : Option ConstId) {k : Option ConstId} (h : P w)
    (rated : Rated gd Held id expr (some (ty, k)) w) :
    Goes (Work.Upholds P Held) (settleExpr id req ty k) (fun ans _ =>
      ∀ node ∈ ans, gd.stands id node ∧ gd.passes id) w := by
  have self : ∀ node ∈ some id, gd.stands id node ∧ gd.passes id := by
    rintro node ⟨⟩
    exact ⟨inv.stands_self visits passes, passes⟩
  refine Goes.bind (goes_unpooled rfl (inv.typed w id expr ty k h visits holdsExpr
    rated) rfl) fun _ fst upholdsFirst _ => ?_
  cases req with
  | none => exact goes_pure upholdsFirst.holds self
  | some req =>
    refine Goes.bind (inv.fit ty req upholdsFirst.holds) fun fit snd upholdsSecond _ =>
      Goes.bind (goes_unpooled rfl (inv.fitted snd id fit upholdsSecond.holds visits) rfl)
      fun _ third upholdsThird _ => ?_
    split
    · exact goes_pure upholdsThird.holds self
    · exact Goes.bind (upheld_describe _ upholdsThird.holds) fun _ fourth hu _ =>
        Goes.bind (upheld_describe _ hu.holds) fun _ fifth hu _ =>
        Goes.bind (inv.upheld_reportAt _ _ _ hu.holds) fun _ _ hu _ =>
        goes_pure hu.holds (by simp)

theorem guided_validateExprWithin (n : Nat) (visits : gd.visits id) (req : Option ConstId) :
    Guided gd P Held id (validateExprWithin n id req) := by
  induction n generalizing id req with
  | zero => exact fun _ h => Goes.throw (upholds_refl h)
  | succ n ih =>
    refine inv.guided_once visits fun {now} h => goes_tree ?_
    have passes : ∀ {expr}, now.tree.expr? id = some expr → gd.passes id := fun hf =>
      inv.passes_form h visits (now.tree.stmt?_of_expr hf)
    have settles : ∀ {expr : Expr} {find : WorkM (Option Typed)}, now.tree.expr? id = some expr →
        Rates gd P Held id expr find now → Goes (Work.Upholds P Held) (settling id req find)
          (fun ans _ => ∀ node ∈ ans, gd.stands id node ∧ gd.passes id) now := by
      intro expr find hf goes
      refine Goes.bind goes fun typed t hu rated => ?_
      split
      · exact inv.goes_settleExpr visits (inv.held h visits hf) (passes hf) req hu.holds rated
      · exact goes_pure hu.holds (by simp)
    have part : ∀ {expr c}, now.tree.expr? id = some expr → c ∈ expr.children → gd.visits c :=
      fun hf mem => inv.child h visits (by rwa [now.tree.children_of_expr hf])
    split
    · exact Goes.throw (upholds_refl h)
    · rename_i hf
      exact settles hf (inv.rates_validateLiteral _ _ h)
    · rename_i hf
      exact settles hf (inv.rates_validateName _ _ h)
    · rename_i hf
      exact (inv.guided_validateParen ih visits (part hf (by simp [Expr.children]))
        (inv.held h visits hf) _ h).answering fun _ _ _ stood node mem =>
          ⟨stood node mem, passes hf⟩
    · rename_i hf
      exact settles hf (inv.rates_validateUnary ih _ _ (part hf (by simp [Expr.children])) h)
    · rename_i hf
      exact settles hf (inv.rates_validateBinary ih _ _ (part hf (by simp [Expr.children]))
        (part hf (by simp [Expr.children])) h)
    · rename_i hf
      refine settles hf (inv.rates_validateTuple ih n _ (fun node ht => part hf ?_)
        (fun elem mem => part hf ?_) _ h)
      · simp_all [Expr.children]
      · simp [Expr.children, mem]

end ExpressionInvariant

end TreeCompiler
