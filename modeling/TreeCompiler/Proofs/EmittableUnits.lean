import TreeCompiler.Proofs.Categories
import TreeCompiler.Proofs.CheckedTrees
import TreeCompiler.Proofs.EmissionSafety

/-!
# Units that can be emitted

A well-formed unit that is valid without a report. Every position of its tree holds what it calls
for, with parentheses peeled off, and validation has noted what emission looks up.
-/

namespace TreeCompiler

open Validation

/-! ### Standing for a node -/

namespace Tree

variable {tree : Tree} {r id old new : NodeId}

theorem Strips.eq_of_type {ty : TypeExpr} (hs : tree.Strips old new)
    (ht : tree.form? old = some (.type ty)) : new = old := by
  cases hs with
  | self => rfl
  | paren held =>
    rw [tree.form?_of_expr held] at ht
    simp at ht

/-- What stands for a node is of the same category. -/
theorem IsWellFormed.admits_of_strips (formed : tree.IsWellFormed r) (hb : tree.Below r old)
    (hs : tree.Strips old new) {slot : Slot} {form : Form} (hf : tree.form? old = some form)
    (admits : slot.admits form) : ∃ held, tree.form? new = some held ∧ slot.admits held := by
  induction hs generalizing form with
  | self => exact ⟨form, hf, admits⟩
  | @paren id i new held hp rest ih =>
    obtain rfl : Form.expr (.paren i) = form := by
      rw [tree.form?_of_expr held] at hf
      exact Option.some.inj hf
    have mem : i ∈ tree.children id := by
      rw [tree.children_of_expr held]
      exact List.mem_singleton_self _
    obtain ⟨form, here, isExpr⟩ := formed.filled id _ hb hf .expression i (by
      simp [Form.slots, Expr.slots])
    refine ih (hb.child mem) here ?_
    cases form <;> cases slot <;> simp_all [Slot.admits]

/-- Parentheses declare nothing. -/
theorem IsLinked.findLocal_strips (lk : tree.IsLinked r) (hb : tree.Below r old)
    (hs : tree.Strips old new) (name : String) :
    tree.findLocal new name = tree.findLocal old name := by
  induction hs with
  | self => rfl
  | @paren id i new held hp rest ih =>
    have mem : i ∈ tree.children id := by
      rw [tree.children_of_expr held]
      exact List.mem_singleton_self _
    rw [ih (hb.child mem), lk.findLocal_child hb mem, tree.stmt?_of_expr held]

end Tree

/-! ### Positions -/

/-- A condition that is known never to hold. -/
def Work.NeverHolds (w : Work) (cond : NodeId) : Prop :=
  ∃ v, (w.tree.facts cond).constant = some v ∧ w.pool.bool? v = .ok (some false)

/-- A loop that tests last has a condition that never holds, and its body refers to what another of
its conditions declares. -/
def Work.UsesUntested (w : Work) (s : Tree) (r : NodeId) : Prop :=
  ∃ loop conds body, s.Below r loop ∧ w.tree.stmt? loop = some (.whileLoop conds body true) ∧
    (∃ cond ∈ conds, w.NeverHolds cond) ∧ s.RefersInto [body] conds

namespace Outset

variable (o : Outset)

/-- A well-formed unit that is valid without a report, with constants that can be read. -/
structure Emittable (w : Work) : Prop where
  fair : o.Fair
  checked : o.Checked w
  valid : w.Valid o.root
  settled : w.Settled o.tree o.root
  formed : o.tree.IsWellFormed o.root
  readable : ∀ id v, o.tree.Below o.root id → (w.tree.facts id).constant = some v → ∃ k, w.pool.get v = .ok k
  tested : ¬w.UsesUntested o.tree o.root

/-- A node that stands for a child in a position that calls for something. -/
structure Seat (id : NodeId) (slot : Slot) (c node : NodeId) : Prop where
  member : c ∈ o.tree.children id
  strips : o.tree.Strips c node
  held : ∃ form, o.tree.form? c = some form ∧ slot.admits form
  filled : ∃ form, o.tree.form? node = some form ∧ slot.admits form
  plain : o.Plain node

variable {o} {w : Work} {id c node : NodeId} {slot : Slot}

namespace Seat

theorem under (seat : o.Seat id slot c node) : o.tree.Below id node :=
  seat.strips.isBelow (Tree.Below.root.child seat.member)

theorem index_lt (seat : o.Seat id slot c node) (lk : o.tree.IsLinked o.root)
    (hb : o.tree.Below o.root id) : node.index < id.index := by
  have lower := lk.upward id c hb seat.member
  have hf := seat.strips.index_le lk (hb.child seat.member)
  omega

theorem expr (seat : o.Seat id .expression c node) : (o.tree.expr? node).isSome := by
  obtain ⟨form, hf, admits⟩ := seat.filled
  cases form <;> simp_all [Slot.admits, Tree.expr?, Form.expr?]

theorem type (seat : o.Seat id .type c node) : node = c ∧ ∃ ty, o.tree.type? c = some ty := by
  obtain ⟨form, hf, admits⟩ := seat.held
  cases form with
  | type ty => exact ⟨seat.strips.eq_of_type hf, ty, by simp [Tree.type?, hf, Form.type?]⟩
  | _ => simp [Slot.admits] at admits

/-- What stands in the position of a statement is a statement of its own. -/
theorem stmt (seat : o.Seat id slot c node) (hs : slot ∉ [.condition, .expression, .type]) :
    node = c ∧ ∃ stmt, o.tree.stmt? c = some stmt ∧ slot.admits (.stmt stmt) := by
  obtain ⟨form, hf, admits⟩ := seat.held
  cases form with
  | stmt stmt =>
    have here : o.tree.stmt? c = some stmt := by simp [Tree.stmt?, hf, Form.stmt?]
    exact ⟨seat.strips.eq_of_stmt (by simp [here]), stmt, here, admits⟩
  | _ => cases slot <;> simp_all [Slot.admits]

/-- A condition is an expression or declares a local. -/
theorem condition (seat : o.Seat id .condition c node) : (o.tree.expr? node).isSome ∧
    o.tree.stmt? c = none ∨
      node = c ∧ ∃ ty name v, o.tree.stmt? c = some (.condDecl ty name v) := by
  obtain ⟨form, hf, admits⟩ := seat.held
  cases form with
  | expr expr =>
    left
    have noStmt : o.tree.stmt? c = none := by simp [Tree.stmt?, hf, Form.stmt?]
    obtain ⟨i, here, admitted⟩ := seat.filled
    cases i with
    | expr i => exact ⟨by simp [Tree.expr?, here, Form.expr?], noStmt⟩
    | stmt stmt =>
      have none := seat.strips.stmt?_eq_none noStmt
      simp [Tree.stmt?, here, Form.stmt?] at none
    | type ty => simp [Slot.admits] at admitted
  | stmt stmt =>
    right
    have here : o.tree.stmt? c = some stmt := by simp [Tree.stmt?, hf, Form.stmt?]
    refine ⟨seat.strips.eq_of_stmt (by simp [here]), ?_⟩
    cases stmt with
    | condDecl ty name v => exact ⟨ty, name, v, here⟩
    | _ => simp [Slot.admits, Stmt.isCondDecl] at admits
  | type ty => simp [Slot.admits] at admits

end Seat

namespace Emittable

variable (em : o.Emittable w)

include em

theorem linked : o.tree.IsLinked o.root := em.fair.linked

theorem valid_of_below (hb : o.tree.Below o.root id) : w.Valid id :=
  em.checked.valid_below .root em.valid hb

theorem holds (hb : o.tree.Below o.root id) : o.Holds w id :=
  em.checked.valid id hb (em.valid_of_below hb)

/-- Parentheses have given up their places. -/
theorem plain (hb : o.tree.Below o.root id) (mem : node ∈ w.tree.children id) : o.Plain node := by
  rcases em.checked.stands id node mem with here | ⟨-, hp⟩
  · exact em.checked.placed id node hb here (em.valid_of_below (hb.child here)) mem
  · exact hp

theorem seat (hb : o.tree.Below o.root id) {form : Form} (hf : o.tree.form? id = some form)
    {slot : Slot} {c new : NodeId} (mem : (slot, c) ∈ form.slots) (hi : c ∈ o.tree.children id)
    (hs : o.tree.Strips c new) (left : new ∈ w.tree.children id) : o.Seat id slot c new := by
  obtain ⟨x, held, admits⟩ := em.formed.filled id _ hb hf slot c mem
  exact ⟨hi, hs, ⟨x, held, admits⟩, em.formed.admits_of_strips (hb.child hi) hs held admits, em.plain hb left⟩

/-- The positions of a statement. -/
theorem stmt_seats (hb : o.tree.Below o.root id) {stmt : Stmt} (hf : o.tree.stmt? id = some stmt) :
    ∃ ren, w.tree.stmt? id = some (stmt.renamed ren) ∧
      ∀ slot c, (slot, c) ∈ stmt.slots → o.Seat id slot c (ren c) := by
  obtain ⟨ren, he, hs⟩ := em.settled.peels.stmt?_eq id
  rw [hf] at he
  refine ⟨ren, he, fun slot c mem => ?_⟩
  have hi : c ∈ o.tree.children id := by
    rw [o.tree.children_of_stmt hf]
    exact Stmt.mem_children_of_slots mem
  refine em.seat hb (o.tree.form?_of_stmt hf) mem hi (hs c hi) ?_
  rw [w.tree.children_of_stmt he, Stmt.children_renamed]
  exact List.mem_map_of_mem (by rwa [← o.tree.children_of_stmt hf])

theorem expr_seats (hb : o.tree.Below o.root id) {expr : Expr} (hf : o.tree.expr? id = some expr) :
    ∃ ren, w.tree.expr? id = some (expr.renamed ren) ∧
      ∀ slot c, (slot, c) ∈ expr.slots → o.Seat id slot c (ren c) := by
  obtain ⟨ren, he, hs⟩ := em.settled.peels.expr?_eq id
  rw [hf] at he
  refine ⟨ren, he, fun slot c mem => ?_⟩
  have hi : c ∈ o.tree.children id := by
    rw [o.tree.children_of_expr hf]
    exact Expr.mem_children_of_slots mem
  refine em.seat hb (o.tree.form?_of_expr hf) mem hi (hs c hi) ?_
  rw [w.tree.children_of_expr he, Expr.children_renamed]
  exact List.mem_map_of_mem (by rwa [← o.tree.children_of_expr hf])

/-- A name is a constant, or it is bound to the local that its scope says. -/
theorem name (hb : o.tree.Below o.root id) {name : String}
    (hf : o.tree.expr? id = some (.name name)) (varies : (w.tree.facts id).constant = none) :
    ∃ decl, (w.tree.facts id).binding = some (.localDecl decl) ∧
      o.tree.localOf id name = some decl := by
  have noType : o.tree.type? id = none := Resolution.type?_eq_none_of_expr hf
  have kept : id ∉ o.left := by
    intro left
    have ht := em.fair.types id left
    simp [noType] at ht
  have complete : o.tree.completable id = true := by
    by_contra incomplete
    obtain ⟨text, bad⟩ := em.fair.complete id hb (by simpa using incomplete)
    simp [noType] at bad
  rcases (em.holds hb).name name hf with ⟨decl, bound, -, -⟩ | ⟨ty, v, -, hk⟩
  · obtain ⟨binding, here, refers⟩ :=
      (em.checked.answers id hb kept complete).name name hf
    rw [bound] at here
    cases here
    exact ⟨decl, bound, refers⟩
  · simp [varies] at hk

theorem bool? {v : ConstId} (hb : o.tree.Below o.root id)
    (hk : (w.tree.facts id).constant = some v) : ∃ ans, w.pool.bool? v = .ok ans := by
  obtain ⟨k, hf⟩ := em.readable id v hb hk
  unfold Pool.bool?
  rw [hf]
  rcases k with _ | k
  · exact ⟨none, rfl⟩
  · cases k <;> exact ⟨_, rfl⟩

end Emittable

end Outset

end TreeCompiler
