import TreeCompiler.Proofs.QuietExpressions
import TreeCompiler.Proofs.ValidatedTrees

/-!
# Statements validated without a report

A statement fails without a report only if one of its parts does. The declarations that a part can
see were visited before it, except that the first part of a `for` loop comes before the conditions.
-/

namespace TreeCompiler

open Step Validation WorkM

variable {ans : Bool} {ids conds : List NodeId} {ty body val : NodeId} {name : String}

/-- Whether nothing beyond its children matters about a statement that validation is done with. -/
def Stmt.isInert : Stmt → Bool
  | .block _ | .varDecl .. | .assign .. | .typedef .. | .forLoop .. | .breakOut _ | .continueLoop _
  | .arm .. | .condDecl .. => false
  | _ => true

namespace Outset

variable {o : Outset} {b w t : Work} {id c : NodeId} {done rest : List NodeId}
  {ok : Bool} {vd : Validator} {rets : List ConstId}

/-- How the parts of a statement are visited. -/
structure Sees (o : Outset) (vd : Validator) : Prop where
  lawful : vd.Upholds .any Work.Loud fun _ _ => True
  types : o.SeesTypes vd.type
  exprs : o.SeesExprs vd.expr
  stmts : ∀ {rets id w ans t}, o.Turn id w → o.Scope w id →
    vd.stmt rets id w = .ok ans t → ¬t.Loud →
    o.Visited id w ans.isSome t

theorem Sees.checks (sees : o.Sees vd) : vd.Checks .any (Keeps Work.Loud) :=
  validationInvariant_loud.checks sees.lawful

/-- What the checks of a statement end with. -/
structure Fares (o : Outset) (id : NodeId) (b : Work) (stmt : Stmt) (ok : Bool) (w : Work) : Prop where
  finds : o.Finds id b ok w
  closes : o.Closes w id
  jump : ok = true → stmt.jump?.isSome → (w.tree.facts id).jump.isSome
  assign : ok = true → ∀ tgt val, stmt = .assign tgt val →
    (∃ name, o.tree.expr? tgt = some (.name name)) ∧
      ∃ decl, (w.tree.facts tgt).binding = some (.localDecl decl)
  loop : ok = true → ∀ init conds updates body, stmt = .forLoop init conds updates body →
    ¬o.tree.RefersInto init conds

theorem Finds.fares {stmt : Stmt} (finds : o.Finds id b ok w)
    (hs : o.tree.stmt? id = some stmt) (inert : stmt.isInert = true) : o.Fares id b stmt ok w where
  finds := finds
  closes := by
    refine ⟨fun stmts isBlock => ?_, fun name ty isTypedef => ?_, fun x isOther dcl => ?_⟩
    · cases hs.symm.trans isBlock
      simp [Stmt.isInert] at inert
    · cases hs.symm.trans isTypedef
      simp [Stmt.isInert] at inert
    · cases hs.symm.trans isOther
      cases stmt <;> simp [Stmt.isInert, Stmt.declaredName?] at inert dcl
  jump _ jumps := by cases stmt <;> simp [Stmt.isInert, Stmt.jump?] at inert jumps
  assign _ tgt val eq := by
    subst eq
    simp [Stmt.isInert] at inert
  loop _ init conds updates body eq := by
    subst eq
    simp [Stmt.isInert] at inert

theorem passes_of_grown (hc : o.Checked w) (hg : w.Grown t) (id : NodeId) : o.Passes id w t := by
  refine (Marks.of_grown id hg).passes hc.unsent ?_ ?_ ?_
  · rw [hg.tree]
    exact hc.unsent id
  · intro begun
    unfold Begun Work.Over Work.Valid at begun ⊢
    rwa [hg.tree]
  · intro _
    rw [hg.tree]
    exact ⟨rfl, rfl, rfl⟩

theorem type?_eq_none_of_stmt {tree : Tree} {stmt : Stmt} (hs : tree.stmt? id = some stmt) :
    tree.type? id = none := by
  simp [Tree.type?, tree.form?_of_stmt hs, Form.type?]

theorem holds_of_stmt {stmt : Stmt} (hs : o.tree.stmt? id = some stmt)
    (children : ∀ c ∈ o.tree.children id, w.Valid c)
    (jump : stmt.jump?.isSome → (w.tree.facts id).jump.isSome)
    (arm : ∀ vals body, stmt = .arm vals body → ∀ val ∈ vals, o.IsCase w val)
    (assign : ∀ tgt val, stmt = .assign tgt val → (∃ name, o.tree.expr? tgt = some (.name name)) ∧
        ∃ decl, (w.tree.facts tgt).binding = some (.localDecl decl))
    (loop : ∀ init conds updates body, stmt = .forLoop init conds updates body →
      ¬o.tree.RefersInto init conds) : o.Holds w id := by
  have notExpr : o.tree.expr? id = none := by
    simp [Tree.expr?, o.tree.form?_of_stmt hs, Form.expr?]
  have notType := type?_eq_none_of_stmt hs
  refine ⟨children, by simp [notType], by simp [notExpr], by simp [notExpr], ?_, ?_, ?_, ?_⟩
  · intro x isOther jumps
    cases hs.symm.trans isOther
    exact jump jumps
  · intro vals body isArm
    exact arm vals body (Option.some.inj (hs.symm.trans isArm))
  · intro tgt val isAssign
    exact assign tgt val (Option.some.inj (hs.symm.trans isAssign))
  · intro init conds updates body isLoop
    exact loop init conds updates body (Option.some.inj (hs.symm.trans isLoop))

theorem plain_of_stmt {stmt : Stmt} (hs : o.tree.stmt? id = some stmt) : o.Plain id := by
  simp [Plain, Tree.expr?, o.tree.form?_of_stmt hs, Form.expr?]

/-- What holds of the work while the parts of a node are visited in order. -/
abbrev At (o : Outset) (id : NodeId) (b : Work) (F : Work → Prop) (done rest : List NodeId)
    (ok : Bool) (w : Work) : Prop :=
  o.Amid id b done rest ok w ∧ F w

/-- What a visit does not undo. -/
def Lasts (o : Outset) (F : Work → Prop) : Prop :=
  ∀ ⦃c b t⦄, o.Passes c b t → F b → F t

/-- What is carried along while the parts of a node that is no type are visited. -/
structure Carries (o : Outset) (id : NodeId) (b : Work) (F : Work → Prop) : Prop where
  plain : o.tree.type? id = none
  lasts : o.Lasts F
  sight : ∀ {done c rest ok w}, o.Amid id b done (c :: rest) ok w → F w → o.Scope w c

theorem Amid.stmtScope (fair : o.Fair) {stmt : Stmt} (hs : o.tree.stmt? id = some stmt)
    (sc : o.Scope b id) (notMethod : stmt.isMethod = false)
    (ha : o.Amid id b done (c :: rest) ok w) : o.Scope w c := by
  refine ha.scope fair sc fun name ps rets body hm => ?_
  cases hs.symm.trans hm
  simp [Stmt.isMethod] at notMethod

theorem carries_of_stmt {F : Work → Prop} (fair : o.Fair) {stmt : Stmt}
    (hs : o.tree.stmt? id = some stmt) (sc : o.Scope b id)
    (notMethod : stmt.isMethod = false) (lasts : o.Lasts F) : o.Carries id b F :=
  ⟨type?_eq_none_of_stmt hs, lasts, fun ha _ => ha.stmtScope fair hs sc notMethod⟩

/-- Children are checked in order. -/
theorem hushed_checkAll {F : Work → Prop} {α : Type} {check : α → WorkM Bool} {place : α → NodeId}
    {entries : List α} (each : ∀ entry ∈ entries, ∀ {done rest ok},
      Hushed (o.At id b F done (place entry :: rest) ok) (check entry) fun ans =>
        o.At id b F (done ++ [place entry]) rest (ok && ans)) :
    Hushed (o.At id b F done (entries.map place ++ rest) ok) (checkAll check entries) fun ans =>
      o.At id b F (done ++ entries.map place) rest (ok && ans) := by
  induction entries generalizing done ok with
  | nil => exact .pure fun _ here => by simpa using here
  | cons entry entries ih =>
    exact .bind (each entry List.mem_cons_self) fun _ =>
      .bind (ih fun x mem => each x (List.mem_cons_of_mem _ mem)) fun _ =>
        .pure fun _ here => by simpa [Bool.and_assoc] using here

theorem finds_of_all {F P : Work → Prop} {step : WorkM Bool}
    (hushed : Hushed P step fun ok => o.At id b F done [] ok) : Hushed P step (o.Finds id b) :=
  hushed.weaken (fun _ here => here) fun _ _ here => ⟨_, [], here.1, fun _ => rfl⟩

section

variable {F : Work → Prop} (fair : o.Fair) (sees : o.Sees vd)

include fair

theorem Lasts.visit {w t : Work} {ans : Bool} (lasts : o.Lasts F)
    (here : o.At id b F done (c :: rest) ok w) (seen : o.Visited c w ans t) :
    o.At id b F (done ++ [c]) rest (ok && ans) t :=
  ⟨here.1.visit fair seen, lasts seen.passes here.2⟩

theorem Lasts.onPool {α : Type} {step : PoolM α} (lasts : o.Lasts F) (grows : PoolM.Grows step) :
    Hushed (o.At id b F done rest ok) (onPool step) fun _ => o.At id b F done rest ok where
  loud _ _ _ loud ran := by
    obtain ⟨p, -, rfl⟩ := grown_of_onPool grows ran
    exact loud
  holds here ran _ := by
    have hg := grown_of_onPool grows ran
    exact ⟨here.1.grown fair hg, lasts (passes_of_grown here.1.checked hg id) here.2⟩

include sees

/-- A type expression is visited. -/
theorem Lasts.typed (lasts : o.Lasts F) :
    Hushed (o.At id b F done (c :: rest) ok) (vd.type c) fun hf w =>
      o.At id b F (done ++ [c]) rest (ok && hf.isSome) w ∧
        (hf = none → o.Sunk w c) ∧ (hf.isSome → (o.tree.type? c).isSome) ∧
        (hf.isSome → w.Valid c) where
  loud := sees.checks.type trivial
  holds here ran quiet := by
    obtain ⟨seen, sunk, ht⟩ := sees.types.visit (here.1.turn fair) ran quiet
    exact ⟨lasts.visit fair here seen, sunk, ht, seen.valid⟩

variable (carries : o.Carries id b F)

include carries

/-- An expression is visited. -/
theorem Carries.expr (req : Option ConstId) :
    Hushed (o.At id b F done (c :: rest) ok) (vd.expr c req) fun hf w =>
      o.At id b F (done ++ [c]) rest (ok && hf.isSome) w ∧
        ∀ node, hf = some node → w.Valid node ∧ o.tree.Strips c node ∧ o.Plain node where
  loud := sees.checks.expr _ trivial
  holds here ran quiet := by
    have mem : c ∈ o.tree.children id := by simp [here.1.children]
    obtain ⟨seen, hst⟩ := sees.exprs.visit (here.1.turn fair) (carries.sight here.1 here.2)
      (fair.hosted here.1.below mem carries.plain) ran quiet
    exact ⟨carries.lasts.visit fair here seen, fun node eq =>
      ⟨(hst node eq).1, (hst node eq).2.1, (hst node eq).2.2.1⟩⟩

theorem Carries.exprOk (req : Option ConstId) :
    Hushed (o.At id b F done (c :: rest) ok) (vd.exprOk c req) fun ans =>
      o.At id b F (done ++ [c]) rest (ok && ans) :=
  .bind (carries.expr fair sees req) fun _ => .pure fun _ here => here.1

theorem Carries.stmt : Hushed (o.At id b F done (c :: rest) ok) (vd.stmt rets c) fun hf =>
      o.At id b F (done ++ [c]) rest (ok && hf.isSome) where
  loud := sees.checks.stmt _ trivial
  holds here ran quiet := carries.lasts.visit fair here
    (sees.stmts (here.1.turn fair) (carries.sight here.1 here.2) ran quiet)

/-- A part of any kind is visited. -/
theorem Carries.nodeOk : Hushed (o.At id b F done (c :: rest) ok) (vd.nodeOk rets c) fun ans =>
      o.At id b F (done ++ [c]) rest (ok && ans) := by
  refine .bind (Q := fun hf => o.At id b F (done ++ [c]) rest (ok && hf.isSome))
    (.tree fun tree => ?_) fun _ => .pure fun _ here => here
  split
  · exact (carries.expr fair sees none).weaken (fun _ here => here) fun _ _ here => here.1
  · exact .bind (carries.lasts.typed fair sees) fun hf => .pure fun _ here => by simpa using here.1
  · exact carries.stmt fair sees
  · exact carries.stmt fair sees

theorem Carries.condOk : Hushed (o.At id b F done (c :: rest) ok) (vd.condOk rets c) fun ans =>
      o.At id b F (done ++ [c]) rest (ok && ans) := by
  refine .tree fun tree => ?_
  split
  · exact .bind (carries.stmt fair sees) fun _ => .pure fun _ here => here
  · exact .bind (carries.lasts.onPool fair (PoolM.grows_intern _)) fun _ => carries.exprOk fair sees _

/-- Parts of any kind are visited in order. -/
theorem Carries.nodesOk :
    Hushed (o.At id b F done (ids ++ rest) ok) (vd.nodesOk rets ids) fun ans =>
      o.At id b F (done ++ ids) rest (ok && ans) := by
  unfold Validator.nodesOk
  have all : Hushed (o.At id b F done (ids.map (fun c => c) ++ rest) ok)
      (checkAll (vd.nodeOk rets) ids) _ :=
    hushed_checkAll fun _ _ {_ _ _} => carries.nodeOk fair sees
  simpa using all

theorem Carries.allNodesOk : Hushed (o.At id b F done ids ok) (vd.nodesOk rets ids) fun ans =>
      o.At id b F (done ++ ids) [] (ok && ans) := by
  have all : Hushed (o.At id b F done (ids ++ []) ok) (vd.nodesOk rets ids) _ :=
    carries.nodesOk fair sees
  rwa [List.append_nil] at all

/-- Conditions are visited in order. -/
theorem Carries.condsOk :
    Hushed (o.At id b F done (conds ++ rest) ok) (vd.condsOk rets conds) fun ans =>
      o.At id b F (done ++ conds) rest (ok && ans) := by
  unfold Validator.condsOk
  have all : Hushed (o.At id b F done (conds.map (fun c => c) ++ rest) ok)
      (checkAll (vd.condOk rets) conds) _ :=
    hushed_checkAll fun _ _ {_ _ _} => carries.condOk fair sees
  simpa using all

/-- The statements of a block are visited in order; a name that is declared again is reported. -/
theorem Carries.blockOk (declared : List String) :
    Hushed (o.At id b F done ids ok) (vd.blockOk rets declared ids) fun ans =>
      o.At id b F (done ++ ids) [] (ok && ans) := by
  induction ids generalizing done ok declared with
  | nil => exact .pure fun _ here => by simpa using here
  | cons c ids ih =>
    have step : ∀ declared, Hushed (o.At id b F done (c :: ids) ok) (do
        let ok ← vd.nodeOk rets c
        let restOk ← vd.blockOk rets declared ids
        pure (ok && restOk) : WorkM Bool) fun ans =>
          o.At id b F (done ++ c :: ids) [] (ok && ans) := fun declared =>
      .bind (carries.nodeOk fair sees) fun _ => .bind (ih declared) fun _ =>
        .pure fun _ here => by simpa [Bool.and_assoc] using here
    refine .tree fun tree => ?_
    split
    · split
      · exact .reported fun _ => Keeps.bind (loudLogic.fail trivial) fun _ =>
          Keeps.bind (loudLogic.blockOk sees.checks rets declared fun _ _ => trivial) fun _ => Keeps.pure _
      · exact step _
    · exact step _

end

/-! ### Declarations -/

theorem Checked.isSome_localType (hc : o.Checked w) {decl : NodeId}
    (hb : o.tree.Below o.root ty) (valid : w.Valid ty) (ht : (o.tree.type? ty).isSome)
    (node : w.tree.localTypeNode decl = ty) : (localType w.tree decl).isSome := by
  obtain ⟨expr, written⟩ := Option.isSome_iff_exists.mp ht
  obtain ⟨-, ⟨hn, term, here, -⟩, -⟩ := (hc.valid ty hb valid).type expr written
  rw [localType_isSome hc.unsent, node]
  exact ⟨valid, by simp [here]⟩

/-- The type of a local is not known before its declaration is visited. -/
theorem Checked.begun_of_localType (hc : o.Checked w) (hb : o.tree.Below o.root id)
    (hk : (localType w.tree id).isSome) : o.Begun w id := by
  by_contra unbegun
  have begins : ∀ {x}, w.Valid x → o.Begun w x := by
    intro x valid
    refine ⟨fun left => ?_, .inr (.inr valid)⟩
    have hx := hc.left x left
    rw [show w.tree.stage x = .validated from valid] at hx
    simp at hx
  have waits : ∀ c ∈ o.tree.children id, ¬w.Valid c := fun c mem valid =>
    unbegun (hc.upward id c hb mem (begins valid))
  have form : w.tree.form? id = o.tree.form? id := hc.form id fun c mem begun =>
    absurd (hc.upward id c hb mem begun) unbegun
  have eq : w.tree.localTypeNode id = o.tree.localTypeNode id := by
    simp only [Tree.localTypeNode, Tree.stmt?, form]
  have valid : w.Valid (o.tree.localTypeNode id) := by
    rw [← eq]
    exact ((localType_isSome hc.unsent).mp hk).1
  unfold Tree.localTypeNode at valid
  split at valid
  · rename_i hs
    exact waits _ (by simp [o.tree.children_of_stmt hs, Stmt.children]) valid
  · rename_i hs
    exact waits _ (by simp [o.tree.children_of_stmt hs, Stmt.children]) valid
  · exact unbegun (begins valid)

/-- A parameter is known once its type has been visited. -/
theorem Checked.declared_param (hc : o.Checked w) (hb : o.tree.Below o.root id)
    {ans : Option ConstId} (sunk : ans = none → o.Sunk w id)
    (ht : ans.isSome → (o.tree.type? id).isSome) (valid : ans.isSome → w.Valid id) :
    o.Declared w id := by
  cases ans with
  | none => exact .inl (sunk rfl).excused
  | some ty =>
    refine .inr (hc.isSome_localType hb (valid rfl) (ht rfl) ?_)
    obtain ⟨expr, written⟩ := Option.isSome_iff_exists.mp (ht rfl)
    rw [← hc.types] at written
    simp [Tree.localTypeNode, stmt?_eq_none_of_type written]

/-- A declaration is known once its type has been visited. -/
theorem Amid.declared_self (ha : o.Amid id b [c] rest ok w) {ans : Option ConstId}
    (sunk : ans = none → o.Sunk w c)
    (ht : ans.isSome → (o.tree.type? c).isSome) (valid : ans.isSome → w.Valid c)
    (node : o.tree.localTypeNode id = c) : o.Declared w id := by
  have mem : c ∈ o.tree.children id := by simp [ha.children]
  cases ans with
  | none => exact .inl (sunk rfl).excused
  | some ty =>
    refine .inr (ha.checked.isSome_localType (ha.below.child mem) (valid rfl) (ht rfl) ?_)
    have form := ha.form fun x he => by
      obtain rfl : x = c := by simpa using he
      exact ht rfl
    simpa only [Tree.localTypeNode, Tree.stmt?, form] using node

theorem closes_of_declared {stmt : Stmt} (hs : o.tree.stmt? id = some stmt)
    (dcl : stmt.declaredName?.isSome) (hd : o.Declared w id) : o.Closes w id := by
  refine ⟨fun stmts isBlock => ?_, fun name ty isTypedef => ?_, fun _ _ _ => hd⟩
  · cases hs.symm.trans isBlock
    simp [Stmt.declaredName?] at dcl
  · cases hs.symm.trans isTypedef
    simp [Stmt.declaredName?] at dcl

/-- Locals whose types are known. -/
def Knows (o : Outset) (known : List NodeId) (w : Work) : Prop := ∀ ty ∈ known, o.Declared w ty

theorem lasts_knows {known : List NodeId} : o.Lasts (o.Knows known) :=
  fun _ _ _ passes knows ty mem => passes.toLater.declared (knows ty mem)

theorem lasts_cases (ok : Bool) (known : List NodeId) :
    o.Lasts fun w => ok = true → ∀ val ∈ known, o.IsCase w val :=
  fun _ _ _ passes cases isOk val mem => passes.isCase (cases isOk val mem)

theorem lasts_closes : o.Lasts (o.Closes · id) := fun _ _ _ passes => passes.closes

section

variable (fair : o.Fair) (sees : o.Sees vd)

include fair sees

/-- Parameters are visited in order; a name that is taken is reported. -/
theorem hushed_paramsOk {ps : List Param} {seen : List String} {known : List NodeId} :
    Hushed (o.At id b (o.Knows known) done (ps.map Param.type ++ rest) ok)
      (vd.paramsOk seen ps) fun ans => o.At id b
        (o.Knows (known ++ ps.map Param.type)) (done ++ ps.map Param.type) rest (ok && ans) := by
  induction ps generalizing done ok seen known with
  | nil => exact .pure fun _ here => by simpa using here
  | cons param ps ih =>
    refine .bind (Q := fun typeOk => o.At id b (o.Knows (known ++ [param.type])) (done ++ [param.type])
      (ps.map Param.type ++ rest) (ok && typeOk)) (.bind (lasts_knows.typed fair sees) fun hf =>
        .pure fun w ⟨⟨ha, knows⟩, sunk, ht, valid⟩ => ⟨ha, fun ty mem => ?_⟩)
      fun typeOk => ?_
    · rcases List.mem_append.mp mem with hi | hi
      · exact knows ty hi
      · obtain rfl := List.mem_singleton.mp hi
        exact ha.checked.declared_param (ha.below.child (by simp [ha.children])) sunk ht valid
    · dsimp only
      split
      · exact .reported fun _ => Keeps.bind
          (loudLogic.toParts.paramsOk sees.checks _ fun _ _ => trivial) fun _ => Keeps.pure _
      · rename_i fresh
        have isFresh : param.name ∉ seen := by simpa using fresh
        exact .bind ih fun _ => .pure fun _ here => by simpa [Bool.and_assoc, isFresh] using here

theorem hushed_returnTypes {F : Work → Prop} (lasts : o.Lasts F) :
    Hushed (o.At id b F done (ids ++ rest) ok) (ids.mapM vd.type) fun answers =>
      o.At id b F (done ++ ids) rest (ok && (allThere answers).isSome) := by
  induction ids generalizing done ok with
  | nil =>
    rw [List.mapM_nil]
    exact .pure fun _ here => by simpa [allThere] using here
  | cons c ids ih =>
    rw [List.mapM_cons]
    refine .bind ((lasts.typed fair sees).weaken (fun _ here => here) fun _ _ here => here.1) fun hf =>
      .bind ih fun _ => .pure fun _ here => ?_
    cases hf <;> simpa [allThere, Bool.and_assoc] using here

theorem finds_methodOk {ps : List Param} {results : List NodeId}
    (hs : o.tree.stmt? id = some (.method name ps results body)) (sc : o.Scope b id) :
    Hushed (o.Amid id b [] (ps.map Param.type ++ results ++ [body]) true)
      (vd.methodOk ps results body) (o.Finds id b) := by
  have carries : o.Carries id b (o.Knows (ps.map Param.type)) := by
    refine ⟨type?_eq_none_of_stmt hs, lasts_knows, fun ha knows => ha.scope fair sc
      fun _ _ _ _ hm => ?_⟩
    cases hs.symm.trans hm
    exact fun param mem => knows param.type (List.mem_map_of_mem mem)
  have fst : Hushed (o.Amid id b [] (ps.map Param.type ++ results ++ [body]) true)
      (vd.paramsOk [] ps) fun ok => o.At id b (o.Knows (ps.map Param.type))
        (ps.map Param.type) (results ++ [body]) ok := by
    have all : Hushed (o.At id b (o.Knows []) [] (ps.map Param.type ++ (results ++ [body])) true)
      (vd.paramsOk [] ps) _ := hushed_paramsOk fair sees
    exact all.weaken (fun _ ha => ⟨by simpa using ha, by simp [Knows]⟩) fun _ _ here => here
  refine .bind fst fun paramsOk => .bind (.bind (hushed_returnTypes fair sees lasts_knows) fun answers =>
    .pure (Q := fun (types : Option (List ConstId)) => o.At id b (o.Knows (ps.map Param.type))
      (ps.map Param.type ++ results) [body] (paramsOk && types.isSome)) fun _ here => here) fun types => ?_
  match paramsOk, types with
  | false, _ => exact .pure fun _ here => ⟨_, _, here.1, by simp⟩
  | true, none => exact .pure fun _ here => ⟨_, _, here.1, by simp⟩
  | true, some types =>
    exact (carries.nodeOk fair sees).weaken (fun _ here => here) fun _ _ here => ⟨_, [], here.1, fun _ => rfl⟩

variable {stmt : Stmt} (hs : o.tree.stmt? id = some stmt) (sc : o.Scope b id)

include hs in
theorem hushed_declares (dcl : stmt.declaredName?.isSome) (node : o.tree.localTypeNode id = c) :
    Hushed (o.Amid id b [] (c :: rest) true) (vd.type c) fun hf =>
      o.At id b (o.Closes · id) [c] rest hf.isSome := by
  refine ((show o.Lasts fun _ => True from fun _ _ _ _ held => held).typed fair sees).weaken
    (fun _ ha => ⟨ha, trivial⟩) fun hf w ⟨⟨ha, _⟩, sunk, ht, valid⟩ => ⟨ha, ?_⟩
  exact closes_of_declared hs dcl (ha.declared_self sunk ht valid node)

include sc in
theorem fares_varDeclOk {init : Option NodeId}
    (hs : o.tree.stmt? id = some (.varDecl ty name init)) :
    Hushed (o.Amid id b [] (ty :: init.toList) true) (vd.varDeclOk ty init)
      (o.Fares id b (.varDecl ty name init)) := by
  have node : o.tree.localTypeNode id = ty := by simp [Tree.localTypeNode, hs]
  have carries := carries_of_stmt (F := (o.Closes · id)) fair hs sc rfl lasts_closes
  have fares : ∀ {ok w}, o.Finds id b ok w → o.Closes w id →
      o.Fares id b (.varDecl ty name init) ok w := fun finds closes =>
    ⟨finds, closes, by simp [Stmt.jump?], by simp, by simp⟩
  refine .bind (hushed_declares fair sees hs rfl node) fun hf => ?_
  rcases hf with _ | _
  · exact .pure fun _ here => fares ⟨_, _, here.1, by simp⟩ here.2
  · cases init with
    | none => exact .pure fun _ here => fares ⟨_, [], here.1, fun _ => rfl⟩ here.2
    | some _ =>
      exact (carries.exprOk fair sees _).weaken (fun _ here => here) fun _ _ here =>
        fares ⟨_, [], here.1, fun _ => rfl⟩ here.2

include sc in
theorem fares_condDeclOk (hs : o.tree.stmt? id = some (.condDecl ty name val)) :
    Hushed (o.Amid id b [] [ty, val] true) (vd.condDeclOk ty val)
      (o.Fares id b (.condDecl ty name val)) := by
  have node : o.tree.localTypeNode id = ty := by simp [Tree.localTypeNode, hs]
  have carries := carries_of_stmt (F := (o.Closes · id)) fair hs sc rfl lasts_closes
  refine .bind (hushed_declares fair sees hs rfl node) fun got => ?_
  cases got with
  | none =>
    exact .pure fun _ here => ⟨⟨_, _, here.1, by simp⟩, here.2, by simp [Stmt.jump?], by simp, by simp⟩
  | some got =>
    exact .bind (carries.lasts.onPool fair (PoolM.grows_intern _)) fun _ =>
      (carries.exprOk fair sees _).weaken (fun _ here => here) fun _ _ here =>
        ⟨⟨_, [], here.1, fun _ => rfl⟩, here.2, by simp [Stmt.jump?], by simp, by simp⟩

theorem fares_typedef (hs : o.tree.stmt? id = some (.typedef name ty)) :
    Hushed (o.Amid id b [] [ty] true) (vd.typeOk ty) (o.Fares id b (.typedef name ty)) := by
  refine .bind (((show o.Lasts fun _ => True from fun _ _ _ _ held => held).typed fair sees).weaken
    (fun _ ha => ⟨ha, trivial⟩) fun _ _ here => here) fun hf =>
      .pure fun w ⟨⟨next, _⟩, sunk, _, valid⟩ => ?_
  refine ⟨⟨_, [], next, fun _ => rfl⟩, ⟨?_, ?_, ?_⟩, by simp [Stmt.jump?], by simp, by simp⟩
  · intro stmts isBlock
    simp [hs] at isBlock
  · intro name' type' isTypedef
    cases hs.symm.trans isTypedef
    cases hf with
    | none => exact .inr (sunk rfl)
    | some hf => exact .inl (valid rfl)
  · intro x isOther dcl
    cases hs.symm.trans isOther
    simp [Stmt.declaredName?] at dcl

include sc in
/-- A target that is no local is reported, unless it has failed already. -/
theorem fares_assignOk {tgt : NodeId} (hs : o.tree.stmt? id = some (.assign tgt val)) :
    Hushed (o.Amid id b [] [tgt, val] true) (vd.assignOk tgt val)
      (o.Fares id b (.assign tgt val)) := by
  have closes : ∀ {w}, o.Closes w id := by
    intro w
    refine ⟨by simp [hs], by simp [hs], fun x isOther dcl => ?_⟩
    cases hs.symm.trans isOther
    simp [Stmt.declaredName?] at dcl
  have carries := carries_of_stmt (F := fun w => (∃ name, o.tree.expr? tgt = some (.name name)) ∧
    ∃ decl, (w.tree.facts tgt).binding = some (.localDecl decl)) fair hs sc rfl
    fun _ _ _ passes ⟨hn, decl, bound⟩ => ⟨hn, decl, (passes.toLater.binding tgt).trans bound⟩
  refine .seen fun tree => ?_
  dsimp only
  split
  · rename_i name decl isName bound
    refine .bind ((carries.expr fair sees none).weaken (fun w ⟨ha, eq⟩ => ⟨ha, ⟨name, ?_⟩, decl, ?_⟩)
      fun _ _ here => here.1) fun got => ?_
    · rw [← (ha.turn fair).expr?, eq, isName]
    · rw [eq, bound]
    · cases got with
      | none => exact .pure fun _ here => ⟨⟨_, _, here.1, by simp⟩, closes, by simp, by simp, by simp⟩
      | some got =>
        refine .bind (.look fun _ => LookLogic.keeps.facts _) fun _ =>
          (carries.exprOk fair sees _).weaken (fun _ here => here) fun _ _ here =>
            ⟨⟨_, [], here.1, fun _ => rfl⟩, closes, by simp [Stmt.jump?], fun _ _ _ eq => ?_, by simp⟩
        cases eq
        exact here.2
  · split
    · exact .reported fun _ => Keeps.pure _
    · rename_i hx
      refine .pure fun w ⟨ha, eq⟩ => ?_
      have turn := ha.turn fair
      have excused := turn.excused (turn.mem_left (by rw [eq]; simpa using hx))
      exact ⟨⟨_, _, ha.fail excused, by simp⟩, closes, by simp, by simp, by simp⟩

variable (carries : o.Carries id b fun _ => True)

include carries

omit hs sc in
theorem finds_whileOk {testLast : Bool} :
    Hushed (o.At id b (fun _ => True) [] (conds ++ [body]) true)
      (vd.whileOk rets id conds body testLast) (o.Finds id b) := by
  refine .bind (carries.condsOk fair sees) fun condsOk => .bind (carries.nodeOk fair sees) fun bodyOk => ?_
  split
  · rename_i tests
    have both : (condsOk && bodyOk) = true := by cases condsOk <;> cases bodyOk <;> simp_all
    have ends : Hushed (o.At id b (fun _ => True) (conds ++ [body]) [] (condsOk && bodyOk))
        (pure true) (o.Finds id b) := .pure fun _ here => ⟨_, [], both ▸ here.1, fun _ => rfl⟩
    refine .bind (.look fun _ => LookLogic.keeps.alwaysTrue id) fun always => ?_
    split
    · refine .tree fun tree => ?_
      split
      · exact .reported fun _ => Keeps.pure _
      · exact ends
    · exact ends
  · exact .pure fun _ here => ⟨_, [], here.1, fun _ => rfl⟩

omit hs sc in
theorem finds_labeled {l : String} : Hushed (o.At id b (fun _ => True) [] [body] true)
      (vd.stmtOk rets id (.labeled l body)) (o.Finds id b) := by
  refine .bind (Q := fun ok => o.At id b (fun _ => True) [] [body] ok) (.tree fun tree => ?_)
    fun _ => .bind (carries.nodeOk fair sees) fun _ => .pure fun _ here => ⟨_, [], here.1, fun _ => rfl⟩
  split
  · exact .pure fun _ here => here
  · split
    · exact .reported fun _ => Keeps.pure _
    · exact .pure fun _ here => here

omit hs sc in
theorem finds_returnOk {vals : List NodeId} :
    Hushed (o.At id b (fun _ => True) [] vals true) (vd.returnOk rets id vals)
      (o.Finds id b) := by
  unfold Validator.returnOk
  split
  · have eq : (vals.zip rets).map Prod.fst = vals := List.map_fst_zip (by omega)
    have all : Hushed (o.At id b (fun _ => True) [] ((vals.zip rets).map Prod.fst ++ []) true)
        (checkAll (fun entry => vd.exprOk entry.1 (some entry.2)) (vals.zip rets)) _ :=
      hushed_checkAll fun _ _ {_ _ _} => carries.exprOk fair sees _
    rw [eq, List.append_nil] at all
    exact finds_of_all all
  · exact .reported fun _ => Keeps.pure _

omit sees carries in
theorem Amid.not_refersInto {decls : List NodeId} (ha : o.Amid id b done rest true w)
    (later : ∀ decl ∈ decls, decl ∈ rest) : ¬o.tree.RefersInto done decls := by
  rintro ⟨node, use, name, decl, he, under, isName, hf, mem⟩
  have childNode : node ∈ o.tree.children id := by simp [ha.children, he]
  have childDecl : decl ∈ o.tree.children id := by simp [ha.children, later decl mem]
  have hb := (ha.below.child childNode).trans under
  have valid : w.Valid use :=
    ha.checked.valid_below (ha.below.child childNode) (ha.valid rfl node he) under
  have kept : use ∉ o.left := by
    intro left
    have hx := ha.checked.left use left
    rw [show w.tree.stage use = .validated from valid] at hx
    simp at hx
  obtain ⟨binding, bound, refers⟩ := (ha.checked.answers use hb kept
    (fair.complete_of_expr hb isName)).name name isName
  rcases (ha.checked.valid use hb valid).name name isName with
    ⟨x, isLocal, -, hk⟩ | ⟨ty, val, isConstant, -⟩
  · cases bound.symm.trans isLocal
    obtain rfl : decl = x := Option.some.inj (hf.symm.trans refers)
    exact ha.fresh decl (later decl mem)
      (ha.checked.begun_of_localType (ha.below.child childDecl) hk)
  · cases bound.symm.trans isConstant
    exact absurd hf (by simp [refers.2])

omit carries in
include sc in
theorem fares_forLoop {init updates : List NodeId}
    (hs : o.tree.stmt? id = some (.forLoop init conds updates body)) :
    Hushed (o.Amid id b [] (init ++ conds ++ updates ++ [body]) true)
      (vd.stmtOk rets id (.forLoop init conds updates body))
      (o.Fares id b (.forLoop init conds updates body)) := by
  have carries : ∀ p : Prop, o.Carries id b fun _ => p := fun _ =>
    carries_of_stmt fair hs sc rfl fun _ _ _ _ held => held
  have fst : Hushed (o.Amid id b [] (init ++ conds ++ updates ++ [body]) true)
      (vd.nodesOk rets init) fun initOk => o.At id b
        (fun _ => initOk = true → ¬o.tree.RefersInto init conds) init (conds ++ (updates ++ [body])) initOk := by
    have all : Hushed (o.At id b (fun _ => True) [] (init ++ (conds ++ (updates ++ [body]))) true)
      (vd.nodesOk rets init) _ := (carries True).nodesOk fair sees
    refine all.weaken (fun _ ha => ⟨by simpa using ha, trivial⟩) fun initOk w here => ⟨here.1, ?_⟩
    rintro rfl
    exact here.1.not_refersInto fair fun decl mem => by simp [mem]
  · refine .bind fst fun initOk => .bind ((carries _).condsOk fair sees) fun _ => .bind ((carries _).nodesOk fair sees) fun _ =>
      .bind ((carries _).nodeOk fair sees) fun _ => .pure fun _ here =>
        ⟨⟨_, [], here.1, fun _ => rfl⟩, ⟨by simp [hs], by simp [hs], ?_⟩,
          by simp [Stmt.jump?], by simp, fun fine _ _ _ _ eq => ?_⟩
    · intro x isOther dcl
      cases hs.symm.trans isOther
      simp [Stmt.declaredName?] at dcl
    · obtain ⟨rfl, rfl, -, -⟩ := Stmt.forLoop.inj eq
      exact here.2 (by simp_all)

/-! ### Arms of a switch -/

omit carries in
include hs sc in
/-- The values of an arm are visited in order; one that is no constant or comes again is
reported. -/
theorem hushed_armValuesOk (notMethod : stmt.isMethod = false) {vals : List NodeId}
    (known : List NodeId) {ty : Option ConstId} {seen : List ConstId} :
    Hushed (o.At id b (fun w => ok = true → ∀ val ∈ known, o.IsCase w val) done
        (vals ++ rest) ok) (vd.armValuesOk ty seen vals) fun ans =>
      o.At id b (fun w => (ok && ans.1) = true → ∀ val ∈ known ++ vals, o.IsCase w val)
        (done ++ vals) rest (ok && ans.1) := by
  induction vals generalizing done ok known seen with
  | nil => exact .pure fun _ here => by simpa using here
  | cons val vals ih =>
    have failing : Keeps Work.Loud (do
        pure (false, (← vd.armValuesOk ty seen vals).2) : WorkM (Bool × List ConstId)) :=
      Keeps.bind (loudLogic.toParts.armValuesOk sees.checks ty seen fun _ _ => trivial) fun _ =>
        Keeps.pure _
    have carries := carries_of_stmt fair hs sc notMethod (lasts_cases ok known)
    refine .bind (carries.expr fair sees ty) fun hf => ?_
    cases hf with
    | none =>
      exact .bind ((ih []).weaken (fun _ here => ⟨here.1.1, by simp⟩) fun _ _ here => here)
        fun _ => .pure fun _ here => by simpa using here.1
    | some node =>
      refine .read fun facts => ?_
      split
      · exact .reported fun _ => failing
      · rename_i k isConstant
        refine .bind (((lasts_cases (ok && (some node).isSome) (known ++ [val])).onPool fair
          (PoolM.grows_canonical k)).weaken (fun w here =>
            ⟨here.1.1.1, fun isOk x mem => ?_⟩) fun _ _ here => here) fun canonical => ?_
        · obtain ⟨⟨⟨-, cases⟩, stands⟩, eq⟩ := here
          rcases List.mem_append.mp mem with hi | hi
          · exact cases (by simpa using isOk) x hi
          · obtain rfl := List.mem_singleton.mp hi
            obtain ⟨valid, hst, hp⟩ := stands node rfl
            exact ⟨node, hst, hp, valid, by simp [eq, isConstant]⟩
        · dsimp only
          split
          · exact .bind (.look fun _ => LookLogic.keeps.describe _) fun _ => .reported fun _ => failing
          · exact (ih _).weaken (fun _ here => here) fun _ _ here => by simpa using here

omit carries

/-- An arm whose visit has begun ends as what its parts allow. -/
theorem Amid.armOk (ha : o.Amid id b [] (o.tree.children id) true w)
    (sc : o.Scope b id) {ty : Option ConstId} {arms arms' : Validator.Arms} {good : Bool}
    (ran : vd.armOk rets ty arms id w = .ok (good, arms') t) (quiet : ¬t.Loud) :
    ∃ done rest, o.Amid id b done rest good t ∧ o.Closes t id ∧
      (good = true → o.Holds t id) ∧ o.Plain id := by
  replace ran := rest_ok ran rfl
  rw [show w.tree.stmt? id = o.tree.stmt? id by simp only [Tree.stmt?, ha.form (by simp)]] at ran
  generalize hs : o.tree.stmt? id = stmt at ran
  split at ran
  · rename_i vals body
    rw [o.tree.children_of_stmt hs] at ha
    have walk : Hushed (o.Amid id b [] (vals ++ [body]) true) (vd.armRest rets ty arms vals body)
        fun ans w => (vals.isEmpty && arms.hasDefault) = false → o.At id b (fun w =>
          ans.1 = true → ∀ val ∈ vals, o.IsCase w val) (vals ++ [body]) [] ans.1 w := by
      refine .bind ((hushed_armValuesOk fair sees hs sc rfl []).weaken
        (fun _ ha => ⟨ha, by simp⟩) fun _ _ here => here) fun ans => ?_
      have carries := carries_of_stmt fair hs sc rfl (lasts_cases ans.1 vals)
      exact .bind (carries.nodeOk fair sees) fun bodyOk => .pure fun _ here single =>
        ⟨by simpa [single] using here.1, fun fine => here.2 (by simp_all)⟩
    dsimp only at ran
    split at ran
    · exact ((Hushed.reported (R := fun _ _ => False) fun _ => walk.loud).holds ha ran quiet).elim
    · rename_i single
      obtain ⟨all, cases⟩ := walk.holds ha ran quiet (by simpa using single)
      refine ⟨_, _, all, ?_, fun fine => ?_, plain_of_stmt hs⟩
      · refine ⟨by simp [hs], by simp [hs], fun x isOther dcl => ?_⟩
        cases hs.symm.trans isOther
        simp [Stmt.declaredName?] at dcl
      · refine holds_of_stmt hs ?_ (by simp [Stmt.jump?]) ?_ (by simp) (by simp)
        · simpa [all.children] using all.valid fine
        · intro values' body' eq val mem
          cases eq
          exact cases fine val mem
  · simp at ran

theorem Amid.armsOk {cases : List NodeId}
    (hs : o.tree.stmt? id = some (.switch val cases)) (sc : o.Scope b id)
    {ty : Option ConstId} {arms : Validator.Arms} (ha : o.Amid id b done (ids ++ rest) ok w)
    (ran : vd.armsOk rets ty arms ids w = .ok ans t) (quiet : ¬t.Loud) :
    o.Amid id b (done ++ ids) rest (ok && ans) t := by
  have keeps : ∀ arms ids, Keeps Work.Loud (vd.armsOk rets ty arms ids) :=
    fun arms ids => loudLogic.armsOk sees.checks rets ty arms fun _ _ => trivial
  induction ids generalizing done ok w arms ans with
  | nil =>
    cases ran
    simpa using ha
  | cons c ids ih =>
    have turn := ha.turn fair
    have armScope : o.Scope w c := ha.stmtScope fair hs sc rfl
    obtain ⟨he, begun, started, goesOn⟩ := bind_ok.mp ran
    rcases turn.start fair started with ⟨rfl, rfl, left⟩ | ⟨rfl, i⟩
    · obtain ⟨others, ranOthers, rfl⟩ := bind_pure_ok.mp goesOn
      have hf := ih (ha.visit fair (turn.pass left)) ranOthers
      simpa [Bool.and_assoc] using hf
    · obtain ⟨⟨good, arms'⟩, mid, ranArm, ran⟩ := bind_ok.mp goesOn
      obtain ⟨res, snd, concluded, ran⟩ := bind_ok.mp ran
      obtain ⟨others, ranOthers, rfl⟩ := bind_pure_ok.mp ran
      have quietSecond := (keeps arms' ids).quiet ranOthers quiet
      obtain ⟨done', rest', ended, closes, h, hp⟩ :=
        Amid.armOk fair sees i armScope ranArm (quiet_of_conclude concluded quietSecond)
      have seen : o.Visited c w good snd := by
        refine (ended.concludes fair ?_ ?_ concluded closes h fun _ _ _ _ _ => hp).2.1
        · cases good <;> rfl
        · intro node eq
          cases good with
          | false => simp at eq
          | true => exact .inl (by simpa using eq.symm)
      have hf := ih (ha.visit fair seen) ranOthers
      simpa [Bool.and_assoc] using hf

theorem finds_switchOk {cases : List NodeId}
    (hs : o.tree.stmt? id = some (.switch val cases)) (sc : o.Scope b id) :
    Hushed (o.At id b (fun _ => True) [] (val :: cases) true)
      (vd.switchOk rets val cases) (o.Finds id b) := by
  have carries := carries_of_stmt (F := fun _ => True) fair hs sc rfl fun _ _ _ _ held => held
  refine .bind (carries.expr fair sees none) fun hf => ?_
  cases hf with
  | none => exact .pure fun _ here => ⟨_, _, here.1.1, by simp⟩
  | some node =>
    refine .read fun facts => ⟨loudLogic.armsOk sees.checks rets _ _ fun _ _ => trivial,
      fun here ran quiet => ?_⟩
    have next := here.1.1.1
    rw [← List.append_nil cases] at next
    exact ⟨_, [], Amid.armsOk fair sees hs sc next ran quiet, fun _ => rfl⟩

end

/-! ### Jumps -/

theorem Marks.jumped (w : Work) (id : NodeId) (jump : Jump) : o.Marks id w (w.jumped id jump) where
  size := by
    unfold Work.jumped
    cases hk : (w.tree.facts jump.target).labelScope <;>
      simp [Work.withScope, Tree.labelScope, hk]
  form x := by simp [Work.jumped, Work.form?_withScope]
  parent x := by
    unfold Work.jumped
    cases hk : (w.tree.facts jump.target).labelScope <;>
      simp [Work.withScope, Tree.labelScope, hk]
  stage x _ := w.facts_jumped_of Facts.stage (fun _ => rfl) id jump x
  type x _ := w.facts_jumped_of Facts.type (fun _ => rfl) id jump x
  constant x _ := w.facts_jumped_of Facts.constant (fun _ => rfl) id jump x
  binding x := w.facts_jumped_of Facts.binding (fun _ => rfl) id jump x
  jump x some := by
    rcases w.jump_jumped id jump x with eq | ⟨-, eq⟩
    · rwa [eq]
    · simp [eq]
  pool := by
    have eq : (w.jumped id jump).pool = w.pool := by
      unfold Work.jumped
      cases hk : (w.tree.facts jump.target).labelScope <;>
        simp [Work.withScope, Tree.labelScope, hk]
    rw [eq]
    exact .refl _

/-- The node, which is a jump, is bound. -/
theorem Amid.jumped (fair : o.Fair) (ha : o.Amid id b done rest ok w) (jump : Jump) :
    o.Amid id b done rest ok (w.jumped id jump) ∧
      ((w.jumped id jump).tree.facts id).jump.isSome := by
  have marks : o.Marks id w (w.jumped id jump) := .jumped w id jump
  have stage := w.facts_jumped_of Facts.stage (fun _ => rfl) id jump id
  have ty := w.facts_jumped_of Facts.type (fun _ => rfl) id jump id
  refine ⟨ha.mark fair marks (stage.trans ha.now) fun answers =>
    answers.keep ty (marks.binding id) marks.pool.retains, ?_⟩
  have hi : (w.jumped id jump).tree.Has id := by
    rw [Tree.has_iff_lt, marks.size, ← Tree.has_iff_lt]
    exact fair.has ha.checked ha.below
  unfold Work.jumped at hi ⊢
  simp only [Work.withTree_tree, Tree.has_modify] at hi ⊢
  rw [Tree.facts_modify_same _ (by simpa using hi)]
  rfl

/-- A jump that goes nowhere is reported, and any other one is bound. -/
theorem fares_jump (fair : o.Fair) {stmt : Stmt} (hs : o.tree.stmt? id = some stmt)
    (jumps : stmt.jump?.isSome) (ha : o.Amid id b [] [] true w) {ans : Option Jump}
    (ran : Jump.resolve id w = .ok ans t) (quiet : ¬t.Loud) :
    o.Fares id b stmt ans.isSome t := by
  have fares : ∀ {w}, o.Amid id b [] [] true w → (w.tree.facts id).jump.isSome →
      o.Fares id b stmt true w := by
    intro w ha bound
    refine ⟨⟨_, _, ha, fun _ => rfl⟩, ⟨?_, ?_, ?_⟩, fun _ _ => bound,
      fun _ tgt val eq => ?_, fun _ init conds updates body eq => ?_⟩
    · intro stmts isBlock
      cases hs.symm.trans isBlock
      simp [Stmt.jump?] at jumps
    · intro name ty isTypedef
      cases hs.symm.trans isTypedef
      simp [Stmt.jump?] at jumps
    · intro x isOther dcl
      cases hs.symm.trans isOther
      cases stmt <;> simp [Stmt.jump?, Stmt.declaredName?] at jumps dcl
    · subst eq
      simp [Stmt.jump?] at jumps
    · subst eq
      simp [Stmt.jump?] at jumps
  obtain ⟨⟨kind, l⟩, isJump⟩ := Option.isSome_iff_exists.mp jumps
  replace ran := rest_ok ran rfl
  have form : (w.tree.stmt? id).bind Stmt.jump? = some (kind, l) := by
    simpa only [Tree.stmt?, ha.form (by simp), hs, Option.bind_some] using
      (congrArg (·.bind Stmt.jump?) hs).trans isJump
  simp only [form] at ran
  cases he : (w.tree.facts id).jump with
  | some jump =>
    simp only [he] at ran
    cases ran
    exact fares ha (by simp [he])
  | none =>
    simp only [he] at ran
    cases hf : w.tree.jumpTarget kind l (w.tree.ancestorsInMethod id) with
    | error error =>
      simp only [hf] at ran
      obtain ⟨u, reported, -⟩ := bind_pure_ok.mp ran
      exact absurd (Work.loud_of_reportAt reported) quiet
    | ok tgt =>
      simp only [hf] at ran
      obtain ⟨sc, s, scoping, ran⟩ := bind_ok.mp ran
      obtain ⟨-, rfl⟩ := labelScope_ok.mp scoping
      obtain ⟨u, mid, marked, ran⟩ := bind_ok.mp ran
      cases marked
      obtain ⟨u, v, bound, ran⟩ := bind_ok.mp ran
      cases bound
      cases ran
      have next := ha.jumped fair
        { target := tgt, depth := w.tree.scopesUpTo tgt (w.tree.ancestorsInMethod id), kind }
      exact fares next.1 next.2

section

variable (fair : o.Fair) (sees : o.Sees vd)

include fair sees

/-- The checks of a statement. -/
theorem fares_stmtOk {stmt : Stmt} (hs : o.tree.stmt? id = some stmt) (sc : o.Scope b id)
    (ha : o.Amid id b [] stmt.children true w)
    (ran : vd.stmtOk rets id stmt w = .ok ans t) (quiet : ¬t.Loud) :
    o.Fares id b stmt ans t := by
  have carries : stmt.isMethod = false → o.Carries id b fun _ => True := fun notMethod =>
    carries_of_stmt fair hs sc notMethod fun _ _ _ _ held => held
  have inert : ∀ {step : WorkM Bool}, Hushed (o.At id b (fun _ => True) [] stmt.children true) step
      (o.Finds id b) → step w = .ok ans t → stmt.isInert = true →
      o.Fares id b stmt ans t := fun hushed ran =>
    (hushed.holds ⟨ha, trivial⟩ ran quiet).fares hs
  cases stmt with
  | container name members => exact inert (finds_of_all ((carries rfl).allNodesOk fair sees)) ran rfl
  | method name ps results body =>
    exact ((finds_methodOk fair sees hs sc).holds ha ran quiet).fares hs rfl
  | block stmts =>
    have all := ((carries rfl).blockOk fair sees []).holds ⟨ha, trivial⟩ ran quiet
    refine ⟨⟨_, [], all.1, fun _ => rfl⟩, ⟨?_, by simp [hs], ?_⟩, by simp [Stmt.jump?], by simp, by simp⟩
    · intro stmts' isBlock stmt mem
      obtain rfl : stmts = stmts' := by simpa [hs] using isBlock
      exact all.1.past stmt mem
    · intro x isOther dcl
      cases hs.symm.trans isOther
      simp [Stmt.declaredName?] at dcl
  | evaluate expr => exact inert (finds_of_all ((carries rfl).exprOk fair sees none)) ran rfl
  | varDecl ty name init => exact (fares_varDeclOk fair sees sc hs).holds ha ran quiet
  | assign tgt val => exact (fares_assignOk fair sees sc hs).holds ha ran quiet
  | typedef name ty => exact (fares_typedef fair sees hs).holds ha ran quiet
  | ifElse conds thenBranch els =>
    exact inert (.bind ((carries rfl).condsOk fair sees) fun _ =>
      .bind ((carries rfl).allNodesOk fair sees) fun _ => .pure fun _ here =>
        ⟨_, [], here.1, fun _ => rfl⟩) ran rfl
  | whileLoop conds body testLast => exact inert (finds_whileOk fair sees (carries rfl)) ran rfl
  | forLoop init conds updates body => exact (fares_forLoop fair sees sc hs).holds ha ran quiet
  | switch val cases => exact inert (finds_switchOk fair sees hs sc) ran rfl
  | arm vals body => simp [Validator.stmtOk] at ran
  | labeled l body => exact inert (finds_labeled fair sees (carries rfl)) ran rfl
  | breakOut l =>
    obtain ⟨jump, res, rfl⟩ := bind_pure_ok.mp ran
    exact fares_jump fair hs rfl ha res quiet
  | continueLoop l =>
    obtain ⟨jump, res, rfl⟩ := bind_pure_ok.mp ran
    exact fares_jump fair hs rfl ha res quiet
  | returnValues vals => exact inert (finds_returnOk fair sees (carries rfl)) ran rfl
  | condDecl ty name val => exact (fares_condDeclOk fair sees sc hs).holds ha ran quiet

/-- A statement is visited without a report. -/
theorem visited_validateStmt (turn : o.Turn id w) (sc : o.Scope w id)
    {ans : Option NodeId} (ran : vd.validateStmt rets id w = .ok ans t)
    (quiet : ¬t.Loud) : o.Visited id w ans.isSome t := by
  rcases turn.once fair ran with ⟨rfl, rfl, left⟩ | ⟨begun, res, ended, ha, went, past⟩
  · exact turn.pass left
  · have quietEnd : ¬ended.Loud := quiet_of_conclude past quiet
    replace went := rest_ok went rfl
    rw [show begun.tree.stmt? id = o.tree.stmt? id by
      simp only [Tree.stmt?, ha.form (by simp)]] at went
    obtain ⟨stmt, hs⟩ : ∃ stmt, o.tree.stmt? id = some stmt := by
      apply Option.ne_none_iff_exists'.mp
      intro none
      simp [none] at went
    rw [o.tree.children_of_stmt hs] at ha
    rw [hs] at went
    obtain ⟨good, last, hc, went⟩ := bind_ok.mp went
    obtain ⟨rfl, rfl⟩ := pure_ok.mp went
    obtain ⟨⟨done, rest, all, whole⟩, closes, jump, assign, loop⟩ :=
      fares_stmtOk fair sees hs sc ha hc quietEnd
    have stood : ∀ node, (if good then some id else none) = some node → node = id ∨ last.Valid node := by
      intro node eq
      cases good with
      | false => simp at eq
      | true => exact .inl (by simpa using eq.symm)
    have h : good = true → o.Holds last id := by
      intro fine
      refine holds_of_stmt hs ?_ (jump fine) ?_ (assign fine) (loop fine)
      · intro c mem
        rw [all.children, whole fine, List.append_nil] at mem
        exact all.valid fine c mem
      · rintro vals body rfl
        simp [Validator.stmtOk] at hc
    obtain ⟨rfl, seen, -⟩ := all.concludes fair (by cases good <;> rfl) stood past closes h
      fun _ _ _ _ _ => plain_of_stmt hs
    cases good <;> exact seen

end

/-- Validation without a report, down to any depth. -/
theorem sees_validatorWithin (fair : o.Fair) (n : Nat) : o.Sees (validatorWithin n) := by
  induction n with
  | zero =>
    refine ⟨validationInvariant_loud.checking.upholds_validatorWithin 0, sees_validateTypeWithin fair 0,
      sees_validateExprWithin fair 0, ?_⟩
    intro rets id w ans t _ _ ran
    simp [validatorWithin] at ran
  | succ n ih =>
    exact ⟨validationInvariant_loud.checking.upholds_validatorWithin (n + 1),
      sees_validateTypeWithin fair (n + 1), sees_validateExprWithin fair (n + 1),
      fun turn sc ran quiet => visited_validateStmt fair ih turn sc ran quiet⟩

end Outset

end TreeCompiler
