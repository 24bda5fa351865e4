import TreeCompiler.Proofs.JumpTargets
import TreeCompiler.Proofs.Renaming

/-!
# Peeled trees

Validation replaces parenthesised expressions by what they hold. The statements of the tree, the
links between them and the targets of jumps are still the same.
-/

namespace TreeCompiler

variable {id c : NodeId}

/-- Whether the statement declares a variable. -/
def Stmt.isVarDecl : Stmt → Bool
  | .varDecl .. => true
  | _ => false

/-- Whether the statement is a declaring condition. -/
def Stmt.isCondDecl : Stmt → Bool
  | .condDecl .. => true
  | _ => false

namespace Tree

theorem declaresVariable_eq (tree : Tree) (ids : List NodeId) :
    tree.declaresVariable ids = ids.any fun id => (tree.stmt? id).any Stmt.isVarDecl := by
  unfold declaresVariable
  congr 1
  funext id
  rcases tree.stmt? id with _ | stmt
  · rfl
  · cases stmt <;> rfl

theorem declaresCondition_eq (tree : Tree) (ids : List NodeId) :
    tree.declaresCondition ids = ids.any fun id => (tree.stmt? id).any Stmt.isCondDecl := by
  unfold declaresCondition
  congr 1
  funext id
  rcases tree.stmt? id with _ | stmt
  · rfl
  · cases stmt <;> rfl

/-- The tree with some parentheses peeled off. -/
structure Peels (s tree : Tree) : Prop where
  root : tree.root = s.root
  size : tree.size = s.size
  forms : ∀ id, ∃ ren : NodeId → NodeId, tree.form? id = (s.form? id).map (Form.mapChildren ren) ∧
      ∀ c ∈ s.children id, s.Strips c (ren c)
  parents : ∀ id, (s.stmt? id).isSome → tree.parent? id = s.parent? id

theorem parent?_setParent_ne (tree : Tree) {x : NodeId} (ne : x ≠ id)
    (up : Option NodeId) : (tree.setParent id up).parent? x = tree.parent? x := by
  simp [parent?, setParent, node?_modify, ne]

theorem form?_setParent (tree : Tree) (id x : NodeId) (up : Option NodeId) :
    (tree.setParent id up).form? x = tree.form? x := by
  unfold form? setParent
  rw [node?_modify]
  split <;> simp [Function.comp_def]

theorem facts_of_modify (tree : Tree) {f : Node → Node}
    (kept : ∀ node : Node, (f node).facts = node.facts) (id x : NodeId) :
    (tree.modify id f).facts x = tree.facts x := by
  unfold facts
  rw [node?_modify]
  split
  · cases tree.node? x <;> simp [kept]
  · rfl

theorem facts_setParent (tree : Tree) (id x : NodeId) (up : Option NodeId) :
    (tree.setParent id up).facts x = tree.facts x :=
  tree.facts_of_modify (by intro _; rfl) id x

theorem facts_replaceChild (tree : Tree) (up old new x : NodeId) :
    (tree.replaceChild up old new).2.facts x = tree.facts x := by
  unfold replaceChild
  split
  · rfl
  · split
    · rw [facts_setParent, facts_setParent]
      exact tree.facts_of_modify (by intro _; rfl) up x
    · rfl

theorem mem_children_replaceChild (tree : Tree) (up new : NodeId) {old x : NodeId}
    (mem : c ∈ tree.children x) :
    c ∈ (tree.replaceChild up old new).2.children x ∨ c = old := by
  unfold replaceChild
  split
  · exact .inl mem
  · split
    · by_cases eq : c = old
      · exact .inr eq
      · left
        unfold children at mem ⊢
        rw [form?_setParent, form?_setParent]
        unfold form? at mem ⊢
        rw [node?_modify]
        split
        · cases hf : tree.node? x with
          | none => simp [hf] at mem
          | some node =>
            simp only [hf, Option.map_some] at mem ⊢
            rw [Form.children_mapChildren]
            exact List.mem_map.mpr ⟨c, mem, by simp [eq]⟩
        · exact mem
    · exact .inl mem

theorem Hosts.parent {tree : Tree} {r up : NodeId} (lk : tree.IsLinked r)
    (hosts : tree.Hosts r id) (hf : tree.parent? id = some up) :
    tree.Hosts r up ∧ (tree.stmt? up).isSome := by
  cases hosts with
  | root =>
    rw [lk.top] at hf
    simp at hf
  | child above stmt mem =>
    have link := lk.linked _ id above.isBelow (by rwa [tree.children_of_stmt stmt])
    cases link.symm.trans hf
    exact ⟨above, by simp [stmt]⟩

namespace Peels

variable {s tree : Tree}

theorem refl (tree : Tree) : tree.Peels tree where
  root := rfl
  size := rfl
  forms node := by
    refine ⟨id, ?_, fun c _ => .self c⟩
    cases tree.form? node <;> simp [Form.mapChildren_id]
  parents _ _ := rfl

theorem modifyFacts (peels : s.Peels tree) (id : NodeId) (f : Facts → Facts) :
    s.Peels (tree.modifyFacts id f) where
  root := peels.root
  size := by rw [size_modifyFacts, peels.size]
  forms x := by
    rw [form?_modify]
    exact peels.forms x
  parents x stmt := by
    rw [parent?_modify]
    exact peels.parents x stmt

/-- What stands for an expression in parentheses takes its place. -/
theorem replaceChild (peels : s.Peels tree) (up : NodeId) {old new : NodeId}
    (hs : s.Strips old new) (hp : s.stmt? old = none) :
    s.Peels (tree.replaceChild up old new).2 := by
  unfold Tree.replaceChild
  split
  · exact peels
  · split
    · refine ⟨peels.root, by simpa [setParent] using peels.size, fun id => ?_, fun id stmt => ?_⟩
      · obtain ⟨ren, form, stripped⟩ := peels.forms id
        by_cases self : id = up
        · let swap (c : NodeId) := if c = old then new else c
          refine ⟨swap ∘ ren, ?_, fun c mem => ?_⟩
          · rw [form?_setParent, form?_setParent]
            simp only [form?, node?_modify]
            unfold form? at form
            cases here : tree.node? up <;> cases there : s.node? up <;>
              simp_all [Form.mapChildren_mapChildren, swap]
          · have fst := stripped c mem
            by_cases eq : ren c = old
            · simp only [Function.comp, swap, eq]
              rw [eq] at fst
              exact fst.trans hs
            · simpa only [Function.comp, swap, eq, ↓reduceIte] using fst
        · refine ⟨ren, ?_, stripped⟩
          rw [form?_setParent, form?_setParent, ← form]
          simp [form?, node?_modify, self]
      · have notOld : id ≠ old := by
          rintro rfl
          simp [hp] at stmt
        have notNew : id ≠ new := by
          rintro rfl
          simp [hs.stmt?_eq_none hp] at stmt
        rw [parent?_setParent_ne _ notOld, parent?_setParent_ne _ notNew, ← peels.parents id stmt]
        simp only [parent?, node?_modify]
        split
        · cases tree.node? id <;> rfl
        · rfl
    · exact peels

variable (peels : s.Peels tree)

include peels

theorem stmt?_eq (id : NodeId) : ∃ ren : NodeId → NodeId,
    tree.stmt? id = (s.stmt? id).map (Stmt.renamed ren) ∧
      ∀ c ∈ s.children id, s.Strips c (ren c) := by
  obtain ⟨ren, form, hs⟩ := peels.forms id
  refine ⟨ren, ?_, hs⟩
  unfold stmt?
  rw [form]
  cases s.form? id <;> simp [Form.stmt?_mapChildren]

theorem expr?_eq (id : NodeId) : ∃ ren : NodeId → NodeId,
    tree.expr? id = (s.expr? id).map (Expr.renamed ren) ∧
      ∀ c ∈ s.children id, s.Strips c (ren c) := by
  obtain ⟨ren, form, hs⟩ := peels.forms id
  refine ⟨ren, ?_, hs⟩
  unfold expr?
  rw [form]
  cases s.form? id <;> simp [Form.expr?_mapChildren]

theorem bare (bare : ∀ i, tree.expr? id ≠ some (.paren i)) (i : NodeId) :
    s.expr? id ≠ some (.paren i) := by
  intro hf
  obtain ⟨ren, he, -⟩ := peels.expr?_eq id
  exact bare (ren i) (by rw [he, hf]; rfl)

theorem isSome_stmt? (id : NodeId) : (tree.stmt? id).isSome = (s.stmt? id).isSome := by
  obtain ⟨ren, stmt, -⟩ := peels.stmt?_eq id
  rw [stmt]
  simp

/-- What does not depend on the children of a statement is the same in both trees. -/
theorem any_stmt? {property : Stmt → Bool}
    (blind : ∀ ren stmt, property (Stmt.renamed ren stmt) = property stmt) (id : NodeId) :
    (tree.stmt? id).any property = (s.stmt? id).any property := by
  obtain ⟨ren, stmt, -⟩ := peels.stmt?_eq id
  rw [stmt]
  cases s.stmt? id <;> simp [blind]

theorem isMethod_eq (id : NodeId) : tree.isMethod id = s.isMethod id :=
  peels.any_stmt? (fun _ stmt => by cases stmt <;> rfl) id

theorem has_iff (id : NodeId) : tree.Has id ↔ s.Has id := by
  rw [has_iff_lt, has_iff_lt, peels.size]

omit peels in
theorem children_of_form {ren : NodeId → NodeId}
    (form : tree.form? id = (s.form? id).map (Form.mapChildren ren)) :
    tree.children id = (s.children id).map ren := by
  unfold children
  rw [form]
  cases s.form? id <;> simp [Form.children_mapChildren]

/-- Every child stands for one from the start. -/
theorem strips_of_child (mem : c ∈ tree.children id) : ∃ old ∈ s.children id, s.Strips old c := by
  obtain ⟨ren, form, hs⟩ := peels.forms id
  rw [children_of_form form] at mem
  obtain ⟨old, hi, rfl⟩ := List.mem_map.mp mem
  exact ⟨old, hi, hs old hi⟩

/-- The children of a statement that are statements are its children from the start. -/
theorem child_of_stmt {stmt : Stmt} (hf : tree.stmt? id = some stmt)
    (mem : c ∈ stmt.children) (hs : (s.stmt? c).isSome) : c ∈ s.children id := by
  obtain ⟨old, hi, stripped⟩ :=
    peels.strips_of_child (by rwa [tree.children_of_stmt hf] : c ∈ tree.children id)
  have wasStmt : (s.stmt? old).isSome := by
    by_contra hp
    rw [stripped.stmt?_eq_none (by simpa using hp)] at hs
    simp at hs
  rwa [stripped.eq_of_stmt wasStmt]

/-- A statement never gives up its place. -/
theorem mem_children_of_stmt (mem : c ∈ s.children id)
    (hs : (s.stmt? c).isSome) : c ∈ tree.children id := by
  obtain ⟨ren, form, hst⟩ := peels.forms id
  rw [children_of_form form]
  exact List.mem_map.mpr ⟨c, mem, (hst c mem).eq_of_stmt hs⟩

/-- Statements of a kind are found among the children of a statement as they were at the start. -/
theorem any_children {ren : NodeId → NodeId} {ids : List NodeId} (property : Stmt → Bool)
    (blind : ∀ ren stmt, property (Stmt.renamed ren stmt) = property stmt)
    (hs : ∀ id ∈ ids, s.Strips id (ren id)) :
    ((ids.map ren).any fun id => (tree.stmt? id).any property) =
      ids.any fun id => (s.stmt? id).any property := by
  induction ids with
  | nil => rfl
  | cons id rest ih =>
    have here : (tree.stmt? (ren id)).any property = (s.stmt? id).any property := by
      rw [peels.any_stmt? blind]
      cases stmt : s.stmt? id with
      | some stmt' => rw [(hs id (by simp)).eq_of_stmt (by simp [stmt]), stmt]
      | none => rw [(hs id (by simp)).stmt?_eq_none stmt]
    rw [List.map_cons, List.any_cons, List.any_cons, here,
      ih fun x mem => hs x (by simp [mem])]

theorem entersScope_eq (id : NodeId) : tree.entersScope id = s.entersScope id := by
  obtain ⟨ren, he, hs⟩ := peels.stmt?_eq id
  have declarations : ∀ ids : List NodeId, (∀ id ∈ ids, s.Strips id (ren id)) →
      tree.declaresVariable (ids.map ren) = s.declaresVariable ids := by
    intro ids hs
    have hf := peels.any_children Stmt.isVarDecl (fun _ stmt => by cases stmt <;> rfl) hs
    simpa only [declaresVariable_eq] using hf
  have conditions : ∀ ids : List NodeId, (∀ id ∈ ids, s.Strips id (ren id)) →
      tree.declaresCondition (ids.map ren) = s.declaresCondition ids := by
    intro ids hs
    have hf := peels.any_children Stmt.isCondDecl (fun _ stmt => by cases stmt <;> rfl) hs
    simpa only [declaresCondition_eq] using hf
  cases stmt : s.stmt? id with
  | none =>
    simp [entersScope, he, stmt]
  | some orig =>
    have hi : ∀ c ∈ orig.children, s.Strips c (ren c) := by
      rw [← s.children_of_stmt stmt]
      exact hs
    have above := peels.parents id (by simp [stmt])
    cases orig with
    | block stmts =>
      have eq := declarations stmts hi
      have methods : (s.parent? id).any tree.isMethod = (s.parent? id).any s.isMethod := by
        cases s.parent? id <;> simp [peels.isMethod_eq]
      simp only [entersScope, he, stmt, Option.map_some, Stmt.renamed, eq, above, methods]
    | ifElse conds thenBranch els =>
      have eq := conditions conds fun id mem => hi id (by simp [Stmt.children, mem])
      simp only [entersScope, he, stmt, Option.map_some, Stmt.renamed, eq]
    | whileLoop conds body testLast =>
      have eq := conditions conds fun id mem => hi id (by simp [Stmt.children, mem])
      simp only [entersScope, he, stmt, Option.map_some, Stmt.renamed, eq]
    | _ => simp only [entersScope, he, stmt, Option.map_some, Stmt.renamed]

section Linked

variable {r : NodeId} (lk : s.IsLinked r)

include lk

theorem ancestorsWithin_eq (steps : Nat) (hosts : s.Hosts r id) (stmt : (s.stmt? id).isSome) :
    tree.ancestorsWithin steps id = s.ancestorsWithin steps id := by
  induction steps generalizing id with
  | zero => rfl
  | succ steps ih =>
    unfold ancestorsWithin
    rw [peels.parents id stmt]
    cases hf : s.parent? id with
    | none => rfl
    | some up =>
      obtain ⟨above, hs⟩ := hosts.parent lk hf
      simp only [ih above hs]

theorem ancestorsInMethod_eq (hosts : s.Hosts r id) (stmt : (s.stmt? id).isSome) :
    tree.ancestorsInMethod id = s.ancestorsInMethod id := by
  have methods : (fun id => !tree.isMethod id) = fun id => !s.isMethod id :=
    funext fun id => by rw [peels.isMethod_eq]
  unfold ancestorsInMethod ancestors fuel
  rw [peels.size, peels.ancestorsWithin_eq lk _ hosts stmt, methods]

end Linked

theorem jump?_eq (id : NodeId) :
    (tree.stmt? id).bind Stmt.jump? = (s.stmt? id).bind Stmt.jump? := by
  obtain ⟨ren, he, -⟩ := peels.stmt?_eq id
  rw [he]
  cases s.stmt? id with
  | none => rfl
  | some stmt => cases stmt <;> rfl

theorem scopesUpTo_eq (tgt : NodeId) (ancestors : List NodeId) :
    tree.scopesUpTo tgt ancestors = s.scopesUpTo tgt ancestors := by
  have scopes : tree.entersScope = s.entersScope := funext peels.entersScope_eq
  unfold scopesUpTo
  rw [scopes]

/-- A label is found at the same statement; what stands under it may have been peeled. -/
theorem findLabeled_eq (l : String) (ancestors : List NodeId) :
    (s.findLabeled l ancestors = none ∧ tree.findLabeled l ancestors = none) ∨
      ∃ id old new, s.findLabeled l ancestors = some (id, old) ∧
        tree.findLabeled l ancestors = some (id, new) ∧ s.Strips old new := by
  induction ancestors with
  | nil => exact .inl ⟨rfl, rfl⟩
  | cons id rest ih =>
    obtain ⟨ren, he, hs⟩ := peels.stmt?_eq id
    have here : ((s.stmt? id).bind Stmt.labeled? = none ∧ (tree.stmt? id).bind Stmt.labeled? = none) ∨
        ∃ name old, (s.stmt? id).bind Stmt.labeled? = some (name, old) ∧
          (tree.stmt? id).bind Stmt.labeled? = some (name, ren old) ∧
          s.Strips old (ren old) := by
      rw [he]
      cases stmt : s.stmt? id with
      | none => exact .inl ⟨rfl, rfl⟩
      | some orig =>
        cases orig with
        | labeled name body =>
          refine .inr ⟨name, body, rfl, rfl, hs body ?_⟩
          simp [s.children_of_stmt stmt, Stmt.children]
        | _ => exact .inl ⟨rfl, rfl⟩
    unfold findLabeled at ih ⊢
    rw [List.findSome?_cons, List.findSome?_cons]
    rcases here with ⟨b, t⟩ | ⟨name, old, b, t, stripped⟩
    · simpa only [b, t] using ih
    · simp only [b, t]
      by_cases eq : name = l
      · simp only [eq]
        exact .inr ⟨id, old, ren old, rfl, rfl, stripped⟩
      · simpa only [eq, ↓reduceIte] using ih

theorem jumpTarget_eq (kind : JumpKind) (l : Option String) (ancestors : List NodeId) :
    tree.jumpTarget kind l ancestors = s.jumpTarget kind l ancestors := by
  cases l with
  | none =>
    have accepts : (fun id => (tree.stmt? id).any kind.accepts) = fun id => (s.stmt? id).any kind.accepts :=
      funext (peels.any_stmt? fun _ stmt => by cases kind <;> cases stmt <;> rfl)
    simp only [jumpTarget, accepts]
  | some l =>
    rcases peels.findLabeled_eq l ancestors with ⟨b, t⟩ | ⟨id, old, new, b, t, hs⟩
    · simp only [jumpTarget, b, t]
    · simp only [jumpTarget, b, t]
      cases kind with
      | breakOut => rfl
      | continueLoop =>
        rw [peels.any_stmt? fun _ stmt => by cases stmt <;> rfl]
        cases stmt : s.stmt? old with
        | none => rw [hs.stmt?_eq_none stmt]; rfl
        | some orig => rw [hs.eq_of_stmt (by simp [stmt]), stmt]

theorem binds_iff {r : NodeId} (lk : s.IsLinked r) (hosts : s.Hosts r id)
    (jump : Jump) : tree.Binds id jump ↔ s.Binds id jump := by
  unfold Binds
  rw [peels.jump?_eq]
  cases stmt : s.stmt? id with
  | none => simp
  | some orig =>
    rw [peels.ancestorsInMethod_eq lk hosts (by simp [stmt])]
    simp only [peels.jumpTarget_eq, peels.scopesUpTo_eq]

end Peels

end Tree

end TreeCompiler
