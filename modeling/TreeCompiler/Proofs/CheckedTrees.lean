import TreeCompiler.Proofs.Sweeps

/-!
# Trees under validation

The state of a tree while validation goes through it without a report. Nodes are visited from the
root down and children in order. A node that has become valid has valid children and the facts that
emission relies on. A node that has failed without a report has failed on account of a name that
resolution gave up on, all of whose ancestors are being visited, or of a name that is used before
its declaration is checked.
-/

namespace TreeCompiler

open Step Validation

namespace Work

/-- A node that passed validation. -/
def Valid (w : Work) (id : NodeId) : Prop := w.tree.stage id = .validated

/-- A node that validation is done with. -/
def Over (w : Work) (id : NodeId) : Prop := w.tree.stage id = .failed ∨ w.Valid id

end Work

/-- A name under one of the nodes refers to one of the declarations. -/
def Tree.RefersInto (tree : Tree) (nodes decls : List NodeId) : Prop :=
  ∃ node id name decl, node ∈ nodes ∧ tree.Below node id ∧ tree.expr? id = some (.name name) ∧
    tree.localOf id name = some decl ∧ decl ∈ decls

/-- A name in the first part of a `for` loop refers to a declaring condition of the loop, which is
only checked afterwards. -/
def Tree.UsesEarly (tree : Tree) (r : NodeId) : Prop :=
  ∃ loop init conds updates body, tree.Below r loop ∧
    tree.stmt? loop = some (.forLoop init conds updates body) ∧ tree.RefersInto init conds

/-- A unit as validation finds it: its tree and root, the names that resolution gave up on, and what
names denote outside the unit. -/
structure Outset where
  tree : Tree
  root : NodeId
  left : List NodeId
  denoted : Component → Prop

namespace Outset

variable (o : Outset)

/-- What is asked of a unit: its links are in order, every node has one place, only text that is no
type cannot be completed, and resolution gives up on types only. -/
structure Fair : Prop where
  linked : o.tree.IsLinked o.root
  present : o.tree.Has o.root
  distinct : ∀ id, o.tree.Below o.root id → (o.tree.children id).Nodup
  complete : ∀ id, o.tree.Below o.root id → o.tree.completable id = false →
    ∃ text, o.tree.type? id = some (.bad text)
  types : ∀ id ∈ o.left, (o.tree.type? id).isSome

/-- A node whose validation has begun. What resolution gave up on is never looked into. -/
def Begun (w : Work) (id : NodeId) : Prop :=
  id ∉ o.left ∧ (w.tree.stage id = .validating ∨ w.Over id)

/-- What can make a node fail without a report. -/
def Excused (w : Work) : Prop :=
  o.tree.UsesEarly o.root ∨ ∃ id ∈ o.left, ∀ ancestor ∈ o.tree.ancestors id, o.Begun w ancestor

/-- A node under which a name lies that resolution gave up on, all of whose ancestors are
visited. -/
def Sunk (w : Work) (id : NodeId) : Prop :=
  ∃ part ∈ o.left, o.tree.Below id part ∧ ∀ ancestor ∈ o.tree.ancestors part, o.Begun w ancestor

/-- The type of a local is known, unless something excuses that it is not. -/
def Declared (w : Work) (decl : NodeId) : Prop :=
  o.Excused w ∨ (localType w.tree decl).isSome

/-- A node that is no parenthesised expression. -/
def Plain (id : NodeId) : Prop := ∀ i, o.tree.expr? id ≠ some (.paren i)

/-- What is known once validation is done with a node, whether it is valid or not. -/
structure Closes (w : Work) (id : NodeId) : Prop where
  block : ∀ stmts, o.tree.stmt? id = some (.block stmts) → ∀ stmt ∈ stmts, w.Over stmt
  typedef : ∀ name ty, o.tree.stmt? id = some (.typedef name ty) → w.Valid ty ∨ o.Sunk w ty
  declares : ∀ stmt, o.tree.stmt? id = some stmt → stmt.declaredName?.isSome → o.Declared w id

/-- A value of an arm is stood for by a valid constant. -/
def IsCase (w : Work) (v : NodeId) : Prop :=
  ∃ node, o.tree.Strips v node ∧ o.Plain node ∧ w.Valid node ∧ (w.tree.facts node).constant.isSome

/-- What is known of a valid node. -/
structure Holds (w : Work) (id : NodeId) : Prop where
  children : ∀ c ∈ o.tree.children id, w.Valid c
  type : ∀ expr, o.tree.type? id = some expr → (∀ text, expr ≠ .bad text) ∧
    (∃ type term, (w.tree.facts id).type = some type ∧ w.pool.Means type term) ∧
    ∀ c ∈ o.tree.children id, (o.tree.type? c).isSome
  literal : ∀ literal, o.tree.expr? id = some (.literal literal) → (w.tree.facts id).constant.isSome
  name : ∀ name, o.tree.expr? id = some (.name name) →
    (∃ decl, (w.tree.facts id).binding = some (.localDecl decl) ∧
      (w.tree.facts id).constant = none ∧ (localType w.tree decl).isSome) ∨
    ∃ type v, (w.tree.facts id).binding = some (.constant type v) ∧ (w.tree.facts id).constant = some v
  jump : ∀ stmt, o.tree.stmt? id = some stmt → stmt.jump?.isSome → (w.tree.facts id).jump.isSome
  arm : ∀ vals body, o.tree.stmt? id = some (.arm vals body) → ∀ v ∈ vals, o.IsCase w v
  assign : ∀ tgt v, o.tree.stmt? id = some (.assign tgt v) →
    (∃ name, o.tree.expr? tgt = some (.name name)) ∧
      ∃ decl, (w.tree.facts tgt).binding = some (.localDecl decl)
  loop : ∀ init conds updates body, o.tree.stmt? id = some (.forLoop init conds updates body) →
    ¬o.tree.RefersInto init conds

/-- The state of a tree that is validated without a report. -/
structure Checked (w : Work) : Prop where
  size : w.tree.size = o.tree.size
  /-- A node changes only once a child that is no type has been visited. -/
  form : ∀ id, (∀ c ∈ o.tree.children id, o.Begun w c → (o.tree.type? c).isSome) →
    w.tree.form? id = o.tree.form? id
  types : ∀ id, w.tree.type? id = o.tree.type? id
  parent : ∀ id, ¬o.Begun w id → w.tree.parent? id = o.tree.parent? id
  upward : ∀ id c, o.tree.Below o.root id → c ∈ o.tree.children id → o.Begun w c → o.Begun w id
  unsent : ∀ id, w.tree.stage id ≠ .emitted
  left : ∀ id ∈ o.left, w.tree.stage id = .failed
  failed : ∀ id, w.tree.stage id = .failed → id ∈ o.left ∨ o.Excused w
  answers : ∀ id, o.tree.Below o.root id → id ∉ o.left → o.tree.completable id = true →
    w.Answers o.tree o.denoted id
  closed : ∀ id, o.tree.Below o.root id → id ∉ o.left → w.Over id → o.Closes w id
  valid : ∀ id, o.tree.Below o.root id → w.Valid id → o.Holds w id
  /-- Where a child was replaced, a valid node that is no parenthesised expression stands. -/
  stands : ∀ id c, c ∈ w.tree.children id → c ∈ o.tree.children id ∨ (w.Valid c ∧ o.Plain c)
  /-- A valid parenthesised expression has given up its place. -/
  placed : ∀ id c, o.tree.Below o.root id → c ∈ o.tree.children id → w.Valid c →
    c ∈ w.tree.children id → o.Plain c

/-- What later work leaves of earlier work. -/
structure Later (b t : Work) : Prop where
  past : ∀ id, b.Over id → t.tree.stage id = b.tree.stage id
  begun : ∀ id, o.Begun b id → o.Begun t id
  type : ∀ id, b.Over id → (t.tree.facts id).type = (b.tree.facts id).type
  constant : ∀ id, b.Over id → (t.tree.facts id).constant = (b.tree.facts id).constant
  binding : ∀ id, (t.tree.facts id).binding = (b.tree.facts id).binding
  jump : ∀ id, (b.tree.facts id).jump.isSome → (t.tree.facts id).jump.isSome
  pool : t.pool.Extends b.pool
  locals : ∀ decl, (localType b.tree decl).isSome → (localType t.tree decl).isSome

/-- What a visit of a node leaves: it goes no further than the nodes under it, and of these it
leaves none unfinished but the node itself. -/
structure Passes (id : NodeId) (b t : Work) : Prop extends o.Later b t where
  stage : ∀ x, ¬o.tree.Below id x → t.tree.stage x = b.tree.stage x
  parent : ∀ x, ¬o.tree.Below id x → t.tree.parent? x = b.tree.parent? x
  still : ∀ x, x ≠ id → t.tree.stage x = .validating → b.tree.stage x = .validating

/-- The locals that names under a node refer to outside of it are known. -/
def Scope (w : Work) (id : NodeId) : Prop :=
  ∀ use name decl, o.tree.Below id use → o.tree.expr? use = some (.name name) →
    o.tree.localOf use name = some decl → o.tree.findLocal id name = some decl →
    o.Declared w decl

/-- It is a node's turn to be visited. -/
structure Turn (id : NodeId) (w : Work) : Prop where
  checked : o.Checked w
  below : o.tree.Below o.root id
  path : ∀ ancestor ∈ o.tree.ancestors id, o.Begun w ancestor
  fresh : ¬o.Begun w id

/-- A node is being visited since `before`. Validation is done with some of its children and has not
begun the others, and `ok` says whether those it is done with are valid. -/
structure Amid (id : NodeId) (b : Work) (done rest : List NodeId) (ok : Bool) (w : Work) : Prop where
  checked : o.Checked w
  passes : o.Passes id b w
  below : o.tree.Below o.root id
  kept : id ∉ o.left
  path : ∀ ancestor ∈ o.tree.ancestors id, o.Begun w ancestor
  now : w.tree.stage id = .validating
  /-- The node gives up its place after its last child at the earliest. -/
  parent : rest ≠ [] → w.tree.parent? id = o.tree.parent? id
  children : o.tree.children id = done ++ rest
  past : ∀ c ∈ done, w.Over c
  fresh : ∀ c ∈ rest, ¬o.Begun w c
  valid : ok = true → ∀ c ∈ done, w.Valid c
  fails : ok = false → o.Excused w

/-- What a visit of a node ends with. -/
structure Visited (id : NodeId) (b : Work) (ok : Bool) (t : Work) : Prop where
  checked : o.Checked t
  passes : o.Passes id b t
  past : t.Over id
  valid : ok = true → t.Valid id
  fails : ok = false → o.Excused t

end Outset

/-! ### What later work keeps -/

/-- The node that gives the type of a local: its own part of a declaration, or what stands for a
parameter. -/
def Tree.localTypeNode (tree : Tree) (decl : NodeId) : NodeId :=
  match tree.stmt? decl with
  | some (.varDecl ty ..) | some (.condDecl ty ..) => ty
  | _ => decl

theorem Validation.localType_isSome {tree : Tree} {decl : NodeId}
    (unsent : ∀ id, tree.stage id ≠ .emitted) :
    (localType tree decl).isSome ↔ tree.stage (tree.localTypeNode decl) = .validated ∧
      (tree.facts (tree.localTypeNode decl)).type.isSome := by
  have opened : localType tree decl =
      if (tree.stage (tree.localTypeNode decl)).hasReached .validated then
        (tree.facts (tree.localTypeNode decl)).type else none := rfl
  cases stage : tree.stage (tree.localTypeNode decl) <;>
    simp_all [Stage.hasReached, Stage.isUpTo, Stage.rank]

namespace Outset

variable {o : Outset} {b mid t w begun : Work} {id c : NodeId}

namespace Later

variable (later : o.Later b t)

include later

theorem valid (valid : b.Valid id) : t.Valid id := by
  unfold Work.Valid at valid ⊢
  rw [later.past id (.inr valid), valid]

theorem isOver (past : b.Over id) : t.Over id := by
  rcases past with hx | valid
  · exact .inl (by rw [later.past id (.inl hx), hx])
  · exact .inr (later.valid valid)

theorem excused (excused : o.Excused b) : o.Excused t := by
  rcases excused with early | ⟨part, left, path⟩
  · exact .inl early
  · exact .inr ⟨part, left, fun ancestor mem => later.begun _ (path ancestor mem)⟩

theorem sunk (sunk : o.Sunk b id) : o.Sunk t id := by
  obtain ⟨part, left, hb, path⟩ := sunk
  exact ⟨part, left, hb, fun ancestor mem => later.begun _ (path ancestor mem)⟩

theorem declared (hd : o.Declared b id) : o.Declared t id :=
  hd.imp later.excused (later.locals id)

theorem scope (sc : o.Scope b id) : o.Scope t id :=
  fun use name decl hb isName hf hv =>
    later.declared (sc use name decl hb isName hf hv)

theorem closes (closes : o.Closes b id) : o.Closes t id where
  block stmts isBlock stmt mem := later.isOver (closes.block stmts isBlock stmt mem)
  typedef name ty isTypedef := (closes.typedef name ty isTypedef).imp later.valid later.sunk
  declares stmt hs dcl := later.declared (closes.declares stmt hs dcl)

theorem isCase (isCase : o.IsCase b id) : o.IsCase t id := by
  obtain ⟨node, hs, hp, valid, k⟩ := isCase
  refine ⟨node, hs, hp, later.valid valid, ?_⟩
  rwa [later.constant node (.inr valid)]

theorem holds (ty : (t.tree.facts id).type = (b.tree.facts id).type)
    (k : (t.tree.facts id).constant = (b.tree.facts id).constant)
    (h : o.Holds b id) : o.Holds t id where
  children c mem := later.valid (h.children c mem)
  type expr ht := by
    obtain ⟨good, ⟨hn, term, here, means⟩, i⟩ := h.type expr ht
    exact ⟨good, ⟨hn, term, ty.trans here, means.extends later.pool⟩, i⟩
  literal literal isLiteral := by
    rw [k]
    exact h.literal literal isLiteral
  name name isName := by
    rw [k, later.binding]
    exact (h.name name isName).imp_left fun ⟨decl, bound, varies, hk⟩ =>
      ⟨decl, bound, varies, later.locals decl hk⟩
  jump stmt hs jumps := later.jump id (h.jump stmt hs jumps)
  arm vals body isArm v mem := later.isCase (h.arm vals body isArm v mem)
  assign tgt v isAssign := by
    rw [later.binding]
    exact h.assign tgt v isAssign
  loop := h.loop

theorem trans (hf : o.Later t mid) : o.Later b mid where
  past id past := (hf.past id (later.isOver past)).trans (later.past id past)
  begun id begun := hf.begun id (later.begun id begun)
  type id past := (hf.type id (later.isOver past)).trans (later.type id past)
  constant id past := (hf.constant id (later.isOver past)).trans (later.constant id past)
  binding id := (hf.binding id).trans (later.binding id)
  jump id some := hf.jump id (later.jump id some)
  pool := hf.pool.trans later.pool
  locals decl some := hf.locals decl (later.locals decl some)

end Later

theorem Later.refl (w : Work) : o.Later w w :=
  ⟨fun _ _ => rfl, fun _ begun => begun, fun _ _ => rfl, fun _ _ => rfl, fun _ => rfl,
    fun _ some => some, .refl _, fun _ some => some⟩

namespace Passes

theorem refl (id : NodeId) (w : Work) : o.Passes id w w :=
  ⟨.refl w, fun _ _ => rfl, fun _ _ => rfl, fun _ _ stage => stage⟩

theorem trans (he : o.Passes id b mid) (hf : o.Passes id mid t) : o.Passes id b t where
  toLater := he.toLater.trans hf.toLater
  stage x out := (hf.stage x out).trans (he.stage x out)
  parent x out := (hf.parent x out).trans (he.parent x out)
  still x ne stage := he.still x ne (hf.still x ne stage)

/-- What a visit of a child leaves, it leaves as part of a visit of the parent. -/
theorem widen (passes : o.Passes c b t) (past : t.Over c)
    (mem : c ∈ o.tree.children id) : o.Passes id b t where
  toLater := passes.toLater
  stage x out := passes.stage x fun hb => out ((Tree.Below.root.child mem).trans hb)
  parent x out := passes.parent x fun hb => out ((Tree.Below.root.child mem).trans hb)
  still x _ stage := by
    apply passes.still x _ stage
    rintro rfl
    rcases past with hx | valid
    · simp [hx] at stage
    · simp [Work.Valid, stage] at valid

end Passes

theorem Checked.valid_below (hc : o.Checked w) (hb : o.tree.Below o.root id)
    (valid : w.Valid id) {part : NodeId} (under : o.tree.Below id part) : w.Valid part := by
  induction under with
  | root => exact valid
  | child under mem ih => exact (hc.valid _ (hb.trans under) ih).children _ mem

/-! ### Notes about a node -/

/-- Work that differs in what is noted about one node, in label scopes and in a grown pool. -/
structure Marks (o : Outset) (id : NodeId) (b t : Work) : Prop where
  size : t.tree.size = b.tree.size
  form : ∀ x, t.tree.form? x = b.tree.form? x
  parent : ∀ x, t.tree.parent? x = b.tree.parent? x
  stage : ∀ x, x ≠ id → t.tree.stage x = b.tree.stage x
  type : ∀ x, x ≠ id → (t.tree.facts x).type = (b.tree.facts x).type
  constant : ∀ x, x ≠ id → (t.tree.facts x).constant = (b.tree.facts x).constant
  binding : ∀ x, (t.tree.facts x).binding = (b.tree.facts x).binding
  jump : ∀ x, (b.tree.facts x).jump.isSome → (t.tree.facts x).jump.isSome
  pool : t.pool.Extends b.pool

namespace Marks

variable (marks : o.Marks id b t)

include marks

theorem children (x : NodeId) : t.tree.children x = b.tree.children x := by
  simp only [Tree.children, marks.form]

theorem begun_iff {x : NodeId} (ne : x ≠ id) : o.Begun t x ↔ o.Begun b x := by
  unfold Begun Work.Over Work.Valid
  rw [marks.stage x ne]

/-- A note about a node that validation is not done with is nothing that earlier work relies on. -/
theorem passes (unsent : ∀ x, b.tree.stage x ≠ .emitted)
    (sent : t.tree.stage id ≠ .emitted) (begun : o.Begun b id → o.Begun t id)
    (past : b.Over id → t.tree.stage id = b.tree.stage id ∧ (t.tree.facts id).type =
    (b.tree.facts id).type ∧
      (t.tree.facts id).constant = (b.tree.facts id).constant) : o.Passes id b t where
  past x isOver := by
    by_cases eq : x = id
    · subst eq
      exact (past isOver).1
    · exact marks.stage x eq
  begun x isBegun := by
    by_cases eq : x = id
    · subst eq
      exact begun isBegun
    · exact (marks.begun_iff eq).mpr isBegun
  type x isOver := by
    by_cases eq : x = id
    · subst eq
      exact (past isOver).2.1
    · exact marks.type x eq
  constant x isOver := by
    by_cases eq : x = id
    · subst eq
      exact (past isOver).2.2
    · exact marks.constant x eq
  binding := marks.binding
  jump := marks.jump
  pool := marks.pool
  locals decl := by
    have unsentAfter : ∀ x, t.tree.stage x ≠ .emitted := by
      intro x
      by_cases eq : x = id
      · exact eq ▸ sent
      · rw [marks.stage x eq]
        exact unsent x
    rw [localType_isSome unsent, localType_isSome unsentAfter]
    have eq : t.tree.localTypeNode decl = b.tree.localTypeNode decl := by
      simp only [Tree.localTypeNode, Tree.stmt?, marks.form]
    rw [eq]
    generalize b.tree.localTypeNode decl = ty
    rintro ⟨valid, hn⟩
    by_cases here : ty = id
    · subst here
      obtain ⟨stage, ty, -⟩ := past (.inr valid)
      rw [stage, ty]
      exact ⟨valid, hn⟩
    · rw [marks.stage ty here, marks.type ty here]
      exact ⟨valid, hn⟩
  stage x out := marks.stage x (by rintro rfl; exact out .root)
  parent x _ := marks.parent x
  still x ne stage := by rwa [marks.stage x ne] at stage

theorem checked (later : o.Later b t) (hc : o.Checked b) (kept : id ∉ o.left)
    (path : o.Begun t id → ∀ x, o.tree.Below o.root x → id ∈ o.tree.children x → o.Begun b x)
    (sent : t.tree.stage id ≠ .emitted) (fails : t.tree.stage id = .failed → o.Excused t)
    (ans : b.Answers o.tree o.denoted id → t.Answers o.tree o.denoted id)
    (closes : t.Over id → o.Closes t id) (h : t.Valid id → o.Holds t id)
    (hp : t.Valid id → ∀ x, o.tree.Below o.root x → id ∈ o.tree.children x →
      id ∈ t.tree.children x → o.Plain id) : o.Checked t := by
  have past : ∀ x, x ≠ id → (t.Over x ↔ b.Over x) := by
    intro x ne
    unfold Work.Over Work.Valid
    rw [marks.stage x ne]
  have valid : ∀ x, x ≠ id → (t.Valid x ↔ b.Valid x) := by
    intro x ne
    unfold Work.Valid
    rw [marks.stage x ne]
  refine ⟨marks.size.trans hc.size, ?_, ?_, ?_, ?_, ?_, ?_, ?_, ?_, ?_, ?_, ?_, ?_⟩
  · intro x types
    rw [marks.form]
    exact hc.form x fun c mem begun => types c mem (later.begun c begun)
  · intro x
    rw [← hc.types x]
    simp only [Tree.type?, marks.form]
  · intro x unbegun
    rw [marks.parent]
    exact hc.parent x fun begun => unbegun (later.begun x begun)
  · intro x c hb mem begun
    apply later.begun
    by_cases eq : c = id
    · subst eq
      exact path begun x hb mem
    · exact hc.upward x c hb mem ((marks.begun_iff eq).mp begun)
  · intro x
    by_cases eq : x = id
    · exact eq ▸ sent
    · rw [marks.stage x eq]
      exact hc.unsent x
  · intro x mem
    rw [marks.stage x (by rintro rfl; exact kept mem)]
    exact hc.left x mem
  · intro x hx
    by_cases eq : x = id
    · exact .inr (fails (eq ▸ hx))
    · rw [marks.stage x eq] at hx
      exact (hc.failed x hx).imp_right later.excused
  · intro x hb out complete
    have answered := hc.answers x hb out complete
    by_cases eq : x = id
    · subst eq
      exact ans answered
    · exact answered.keep (marks.type x eq) (marks.binding x) marks.pool.retains
  · intro x hb out isOver
    by_cases eq : x = id
    · subst eq
      exact closes isOver
    · exact later.closes (hc.closed x hb out ((past x eq).mp isOver))
  · intro x hb isValid
    by_cases eq : x = id
    · subst eq
      exact h isValid
    · have wasValid := (valid x eq).mp isValid
      exact later.holds (later.type x (.inr wasValid)) (later.constant x (.inr wasValid))
        (hc.valid x hb wasValid)
  · intro x c mem
    rw [marks.children] at mem
    exact (hc.stands x c mem).imp_right fun hs =>
      ⟨later.valid hs.1, hs.2⟩
  · intro x c hb mem isValid here
    by_cases eq : c = id
    · subst eq
      exact hp isValid x hb mem here
    · rw [marks.children] at here
      exact hc.placed x c hb mem ((valid c eq).mp isValid) here

end Marks

theorem Marks.trans (he : o.Marks id b mid) (hf : o.Marks id mid t) : o.Marks id b t where
  size := hf.size.trans he.size
  form x := (hf.form x).trans (he.form x)
  parent x := (hf.parent x).trans (he.parent x)
  stage x ne := (hf.stage x ne).trans (he.stage x ne)
  type x ne := (hf.type x ne).trans (he.type x ne)
  constant x ne := (hf.constant x ne).trans (he.constant x ne)
  binding x := (hf.binding x).trans (he.binding x)
  jump x some := hf.jump x (he.jump x some)
  pool := hf.pool.trans he.pool

theorem Marks.of_grown (id : NodeId) (hg : b.Grown t) : o.Marks id b t := by
  obtain ⟨p, extd, rfl⟩ := hg
  exact ⟨rfl, fun _ => rfl, fun _ => rfl, fun _ _ => rfl, fun _ _ => rfl, fun _ _ => rfl,
    fun _ => rfl, fun _ some => some, extd⟩

theorem Marks.modifyFacts (id : NodeId) (w : Work) {f : Facts → Facts}
    (binding : ∀ facts, (f facts).binding = facts.binding)
    (jump : ∀ facts, (f facts).jump = facts.jump) :
    o.Marks id w (w.withTree (w.tree.modifyFacts id f)) where
  size := w.tree.size_modifyFacts id f
  form x := w.tree.form?_modify id x f
  parent x := w.tree.parent?_modify id x f
  stage x ne := by
    simp only [Tree.stage, Work.withTree_tree, w.tree.facts_modify_ne ne]
  type x ne := by
    simp only [Work.withTree_tree, w.tree.facts_modify_ne ne]
  constant x ne := by
    simp only [Work.withTree_tree, w.tree.facts_modify_ne ne]
  binding x := w.tree.facts_modify_of Facts.binding binding id x
  jump x some := by
    have eq := w.tree.facts_modify_of Facts.jump jump id x
    rwa [Work.withTree_tree, eq]
  pool := .refl _

end Outset

end TreeCompiler
