import TreeCompiler.Proofs.Copies

/-!
# Shapes of subtrees

A form is what its head says and its children in order. Passing the children through a function
keeps the head and meets them in that order. Two subtrees of a tree without circles have the same
shape if and only if they are equal when unfolded from their roots.
-/

namespace TreeCompiler

/-- What a form says besides its children, and how many it has in each place. -/
inductive Head where
  | container (name : String) (members : Nat)
  | method (name : String) (params : List String) (returns : Nat)
  | block (stmts : Nat)
  | evaluate
  | varDecl (name : String) (hasInit : Bool)
  | assign
  | typedef (name : String)
  | ifElse (conds : Nat) (hasElse : Bool)
  | whileLoop (conds : Nat) (testLast : Bool)
  | forLoop (init conds updates : Nat)
  | switch (cases : Nat)
  | arm (vals : Nat)
  | labeled (label : String)
  | breakOut (label : Option String)
  | continueLoop (label : Option String)
  | returnValues (vals : Nat)
  | condDecl (name : String)
  | literal (literal : Literal)
  | name (name : String)
  | paren
  | unary (op : UnaryOp)
  | binary (op : BinaryOp)
  | tuple (hasType : Bool) (elements : Nat)
  | namedType (names : List String) (params : Nat)
  | keywordType (keyword : Keyword)
  | tupleType (elements : Nat)
  | nullableType
  | badType (text : String)

def Form.head : Form → Head
  | .stmt (.container name members) => .container name members.length
  | .stmt (.method name params returns _) => .method name (params.map Param.name) returns.length
  | .stmt (.block stmts) => .block stmts.length
  | .stmt (.evaluate _) => .evaluate
  | .stmt (.varDecl _ name init) => .varDecl name init.isSome
  | .stmt (.assign _ _) => .assign
  | .stmt (.typedef name _) => .typedef name
  | .stmt (.ifElse conds _ els) => .ifElse conds.length els.isSome
  | .stmt (.whileLoop conds _ testLast) => .whileLoop conds.length testLast
  | .stmt (.forLoop init conds updates _) => .forLoop init.length conds.length updates.length
  | .stmt (.switch _ cases) => .switch cases.length
  | .stmt (.arm vals _) => .arm vals.length
  | .stmt (.labeled label _) => .labeled label
  | .stmt (.breakOut label) => .breakOut label
  | .stmt (.continueLoop label) => .continueLoop label
  | .stmt (.returnValues vals) => .returnValues vals.length
  | .stmt (.condDecl _ name _) => .condDecl name
  | .expr (.literal value) => .literal value
  | .expr (.name text) => .name text
  | .expr (.paren _) => .paren
  | .expr (.unary op _) => .unary op
  | .expr (.binary op _ _) => .binary op
  | .expr (.tuple ty elements) => .tuple ty.isSome elements.length
  | .type (.named names params) => .namedType names params.length
  | .type (.keyword word) => .keywordType word
  | .type (.tuple elements) => .tupleType elements.length
  | .type (.nullable _) => .nullableType
  | .type (.bad text) => .badType text

namespace Form

theorem head_mapChildren (f : NodeId → NodeId) (form : Form) :
    (form.mapChildren f).head = form.head := by
  cases form with
  | stmt stmt => cases stmt <;> simp [mapChildren_stmt, Stmt.renamed, head]
  | expr expr => cases expr <;> simp [mapChildren_expr, Expr.renamed, head]
  | type ty => cases ty <;> simp [mapChildren, mapChildrenM, TypeExpr.mapChildrenM, head]

theorem params_ext {params others : List Param}
    (names : params.map Param.name = others.map Param.name)
    (types : params.map Param.type = others.map Param.type) : params = others := by
  induction params generalizing others with
  | nil => exact (List.map_eq_nil_iff.mp names.symm).symm
  | cons param rest ih =>
    cases others with
    | nil => simp at names
    | cons x others =>
      simp only [List.map_cons, List.cons.injEq] at names types
      rw [ih names.2 types.2, show param = x from congrArg₂ Param.mk names.1 types.1]

theorem eq_of_head {form other : Form} (eq : form.head = other.head)
    (ps : form.children = other.children) : form = other := by
  rcases form with stmt | expr | ty <;> rcases other with stmt' | expr' | ty'
  · cases stmt <;> cases stmt' <;> simp only [head, reduceCtorEq] at eq <;>
      simp_all [children, Stmt.children]
    case method =>
      obtain ⟨types, more⟩ := List.append_inj ps (by simpa using congrArg List.length eq.2.1)
      obtain ⟨same, body⟩ := List.append_inj more eq.2.2
      exact ⟨params_ext eq.2.1 types, same, by simpa using body⟩
    case varDecl init _ _ init' => cases init <;> cases init' <;> simp_all
    case ifElse els _ _ elseBranch' =>
      obtain ⟨same, more⟩ := List.append_inj ps eq.1
      cases els <;> cases elseBranch' <;> simp_all
    case forLoop =>
      obtain ⟨same, more⟩ := List.append_inj ps eq.1
      obtain ⟨also, last⟩ := List.append_inj more eq.2.1
      simp_all
  · cases stmt <;> cases expr' <;> cases eq
  · cases stmt <;> cases ty' <;> cases eq
  · cases expr <;> cases stmt' <;> cases eq
  · cases expr <;> cases expr' <;> simp only [head, reduceCtorEq] at eq <;> simp_all [children, Expr.children]
    case tuple ty _ ty' _ => cases ty <;> cases ty' <;> simp_all
  · cases expr <;> cases ty' <;> cases eq
  · cases ty <;> cases stmt' <;> cases eq
  · cases ty <;> cases expr' <;> cases eq
  · cases ty <;> cases ty' <;> simp only [head, reduceCtorEq] at eq <;> simp_all [children, TypeExpr.children]

theorem head_of_shell {form other : Form} (eq : form.shell = other.shell) :
    form.head = other.head := by
  rw [← head_mapChildren (fun _ => ⟨0⟩) form, ← head_mapChildren (fun _ => ⟨0⟩) other]
  exact congrArg head eq

theorem shell_of_head {form other : Form} (eq : form.head = other.head)
    (long : form.children.length = other.children.length) : form.shell = other.shell := by
  refine eq_of_head ?_ ?_
  · rw [shell, shell, head_mapChildren, head_mapChildren, eq]
  · rw [shell, shell, children_mapChildren, children_mapChildren, List.map_const', List.map_const', long]

/-- Renames a child and notes that it was met. -/
def noting (f : NodeId → NodeId) (child : NodeId) : StateM (List NodeId) NodeId := do
  modify (· ++ [child])
  pure (f child)

theorem run_mapM_noting (f : NodeId → NodeId) (ids met : List NodeId) :
    (ids.mapM (noting f)).run met = pure (ids.map f, met ++ ids) := by
  induction ids generalizing met with
  | nil => simp
  | cons id rest ih => simp [List.mapM_cons, ih, noting]

/-- The children of a form are met in order, each once, and only they are changed. -/
theorem mapChildren_follows_children (form : Form) (f g : NodeId → NodeId) :
    (form.mapChildren f).children = form.children.map f ∧
      (form.mapChildrenM (noting f)).run [] = (form.mapChildren f, form.children) ∧
      form.mapChildren id = form ∧ (form.mapChildren f).mapChildren g = form.mapChildren (g ∘ f) ∧
      (form.mapChildren f).head = form.head := by
  refine ⟨children_mapChildren f form, ?_, mapChildren_id form, mapChildren_mapChildren f g form,
    head_mapChildren f form⟩
  have passed := congrArg (fun step => (step.run []).run) (children_mapChildrenM (noting f) form)
  rw [run_mapM_noting] at passed
  obtain ⟨children, met⟩ := Prod.ext_iff.mp passed
  refine Prod.ext (eq_of_head ?_ ?_) met
  · rw [head_mapChildren]
    exact head_of_shell (shell_mapChildrenM form [])
  · rw [children_mapChildren]
    exact children

end Form

/-- A subtree as it is when unfolded from its root. -/
inductive Shape where
  | absent
  | node (completable : Bool) (head : Head) (parts : List Shape)

namespace Tree

variable {tree : Tree} {id : NodeId} {n : Nat}

/-- Unfolds a subtree down to a depth. -/
def shapeWithin (tree : Tree) : Nat → NodeId → Shape
  | 0, _ => .absent
  | n + 1, id =>
    match tree.node? id with
    | none => .absent
    | some node => .node node.completable node.form.head (node.form.children.map (tree.shapeWithin n))

/-- Unfolds a subtree. -/
def shape (tree : Tree) (id : NodeId) : Shape := tree.shapeWithin tree.fuel id

theorem all_zip_iff {α β : Type} {same : α → α → Bool} {view : α → β} {as : List α}
    (each : ∀ a ∈ as, ∀ b, same a b = true ↔ view a = view b) (bs : List α) :
    as.length = bs.length ∧ (as.zip bs).all (fun pair => same pair.1 pair.2) = true ↔
      as.map view = bs.map view := by
  induction as generalizing bs with
  | nil => cases bs <;> simp
  | cons a as ih =>
    cases bs with
    | nil => simp
    | cons b bs =>
      obtain ⟨here, others⟩ := List.forall_mem_cons.mp each
      simp [← ih others bs, ← here b, and_left_comm]

/-- One step down, two subtrees say the same if they are equal, when this is so of their
children. -/
theorem sameShapeWithin_iff_of_children (has : tree.Has id)
    (ps : ∀ c ∈ tree.children id, ∀ other, tree.sameShapeWithin n c other = true ↔
      tree.shapeWithin n c = tree.shapeWithin n other) (other : NodeId) :
    tree.sameShapeWithin (n + 1) id other = true ↔
      tree.shapeWithin (n + 1) id = tree.shapeWithin (n + 1) other := by
  obtain ⟨node, hf⟩ := Option.isSome_iff_exists.mp has
  have children : tree.children id = node.form.children := by simp [children, form?, hf]
  rw [children] at ps
  rw [sameShapeWithin, shapeWithin, shapeWithin, hf]
  cases tree.node? other with
  | none => simp
  | some x =>
    have parts := all_zip_iff ps x.form.children
    simp only [Bool.and_eq_true, beq_iff_eq, Shape.node.injEq, ← parts]
    constructor
    · rintro ⟨⟨⟨flag, shell⟩, long⟩, all⟩
      exact ⟨flag, Form.head_of_shell shell, long, all⟩
    · rintro ⟨flag, head, long, all⟩
      exact ⟨⟨⟨flag, Form.shell_of_head head long⟩, long⟩, all⟩

/-- The tree without spans, parents and what was found out about its nodes. -/
def bare (tree : Tree) : Tree :=
  { tree with nodes := tree.nodes.map fun node => { form := node.form, completable := node.completable } }

theorem sameShapeWithin_bare (n : Nat) (first second : NodeId) :
    tree.bare.sameShapeWithin n first second = tree.sameShapeWithin n first second := by
  have node : ∀ id, tree.bare.node? id =
      (tree.node? id).map fun node => { form := node.form, completable := node.completable } := by
    simp [bare, node?]
  induction n generalizing first second with
  | zero => rfl
  | succ n ih =>
    rw [sameShapeWithin, sameShapeWithin, node, node]
    cases tree.node? first <;> cases tree.node? second <;> simp [ih]

section

variable (has : ∀ id c, c ∈ tree.children id → tree.Has c)
  (acyclic : ∀ id c, c ∈ tree.children id → ¬tree.Below c id)

include has acyclic

theorem sameShape_iff (present : tree.Has id) (other : NodeId) :
    tree.sameShape id other = true ↔ tree.shape id = tree.shape other :=
  fuel_induction (P := fun n id => ∀ other, tree.sameShapeWithin n id other = true ↔
    tree.shapeWithin n id = tree.shapeWithin n other) has acyclic
    (fun _ _ => sameShapeWithin_iff_of_children) present other

theorem shape_of_node {node : Node} (hf : tree.node? id = some node) :
    tree.shape id = .node node.completable node.form.head (node.form.children.map tree.shape) := by
  -- one step further down there is nothing more
  have stable : tree.shapeWithin (tree.fuel + 1) id = tree.shapeWithin tree.fuel id := by
    refine fuel_induction (P := fun n id => tree.shapeWithin (n + 1) id = tree.shapeWithin n id) has acyclic
      (fun n id present ps => ?_) (by simp [Has, hf])
    obtain ⟨node, hf⟩ := Option.isSome_iff_exists.mp present
    have children : tree.children id = node.form.children := by simp [children, form?, hf]
    rw [shapeWithin, shapeWithin, hf]
    exact congrArg _ (List.map_congr_left (children ▸ ps))
  rw [shape, ← stable, shapeWithin, hf]
  rfl

end

/-- Two nodes of a table without circles have the same shape if and only if the trees unfolded from
them are equal. So this is an equivalence, and neither spans nor facts count. -/
theorem sameShape_is_equality (tree : Tree)
    (has : ∀ id child, child ∈ tree.children id → tree.Has child)
    (acyclic : ∀ id child, child ∈ tree.children id → ¬tree.Below child id) :
    (∀ id node, tree.node? id = some node →
      tree.shape id = .node node.completable node.form.head (node.form.children.map tree.shape)) ∧
    (∀ first second, tree.Has first → tree.Has second →
      (tree.sameShape first second = true ↔ tree.shape first = tree.shape second)) ∧
    Equivalence (fun first second : { id // tree.Has id } => tree.sameShape first second = true) ∧
    ∀ first second, tree.sameShape first second = tree.bare.sameShape first second := by
  have decides := fun {id} => @sameShape_iff tree id has acyclic
  refine ⟨fun _ _ => shape_of_node has acyclic, fun first second present _ => decides present second,
    ⟨fun id => (decides id.2 id).mpr rfl, ?_, ?_⟩, fun first second => ?_⟩
  · exact fun {first second} same => (decides second.2 first).mpr ((decides first.2 second).mp same).symm
  · exact fun {first second third} same also => (decides first.2 third).mpr
      (((decides first.2 second).mp same).trans ((decides second.2 third).mp also))
  · rw [sameShape, sameShape, sameShapeWithin_bare]
    simp [fuel, size, bare]

/-- A number is not the same as the number in parentheses. -/
theorem sharedSum_shapes :
    sharedSum.sameShape ⟨0⟩ ⟨1⟩ = false ∧ sharedSum.shape ⟨0⟩ ≠ sharedSum.shape ⟨1⟩ ∧
    sharedSum.shape ⟨1⟩ = .node true .paren [.node true (.literal (.int 1)) []] := by
  have arena : sharedSum.IsArena := isArena_of_table (by rintro _ ⟨⟩) (by decide)
  obtain ⟨unfolds, decides, -⟩ := sameShape_is_equality sharedSum arena.has arena.acyclic
  have differ : sharedSum.sameShape ⟨0⟩ ⟨1⟩ = false := by decide
  refine ⟨differ, fun equal => ?_, (unfolds ⟨1⟩ _ rfl).trans ?_⟩
  · simp [(decides ⟨0⟩ ⟨1⟩ rfl rfl).mpr equal] at differ
  · exact congrArg (fun part => Shape.node true .paren [part]) (unfolds ⟨0⟩ _ rfl)

end Tree

end TreeCompiler
