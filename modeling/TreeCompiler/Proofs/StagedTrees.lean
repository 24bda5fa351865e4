import TreeCompiler.Proofs.ValidatedTrees
import TreeCompiler.Proofs.Visits

/-!
# Trees between stages

How the stages of the nodes of a tree hang together whatever was done to it and wherever that
stopped: what is valid has valid parts, what was peeled off is valid, and only what is valid all the
way up to its statement is emitted. From this follows that no step moves a node back.
-/

namespace TreeCompiler

open Step

/-! ### Steps that move no node -/

/-- What is noted so far at a node, or something in its place. -/
structure Facts.Retains (b t : Facts) : Prop where
  type : b.type.isSome → t.type.isSome
  binding : b.binding.isSome → t.binding.isSome
  jump : b.jump.isSome → t.jump.isSome

theorem Facts.Retains.refl (facts : Facts) : facts.Retains facts := ⟨id, id, id⟩

theorem Facts.Retains.trans {b mid t : Facts} (he : b.Retains mid) (later : mid.Retains t) :
    b.Retains t :=
  ⟨later.type ∘ he.type, later.binding ∘ he.binding, later.jump ∘ he.jump⟩

/-- A property of the work that is kept as long as no node changes its stage or its place. -/
structure StillInvariant (P : Work → Prop) : Prop extends LookupInvariant P where
  note : ∀ w id f, P w → (∀ facts : Facts, (f facts).stage = facts.stage ∧ facts.Retains (f facts)) →
    P (w.withTree (w.tree.modifyFacts id f))
  report : ∀ w diag, P w → P (w.reported diag)
  scope : ∀ w own, P w → P (w.withScope own)

namespace StillInvariant

open WorkM Validation LookupInvariant

variable {P : Work → Prop} (inv : StillInvariant P)

include inv

theorem always_modifyFacts (id : NodeId) {f : Facts → Facts}
    (still : ∀ facts : Facts, (f facts).stage = facts.stage ∧ facts.Retains (f facts)) :
    Always P (modifyFacts id f) :=
  fun w h => inv.note w id f h still

theorem always_reportAt (code : Code) (id : NodeId) (args : List String) :
    Always P (reportAt code id args) :=
  Always.bind always_tree fun _ w h => inv.report w _ h

theorem steps : StepLogic (Always P) := inv.pools.steps inv.always_reportAt

theorem always_labelScope (own : NodeId) : Always P (labelScope own) :=
  fun w h => inv.scope w own h

theorem notes : NoteInvariant P where
  pool := inv.pool
  symbols := inv.symbols
  note w id f h kept := inv.note w id f h fun facts => by
    obtain ⟨eq, typed⟩ := kept facts
    exact ⟨by simpa only [Facts.untyped] using congrArg Facts.stage eq, typed, (congrArg (·.binding.isSome) eq).trans,
      (congrArg (·.jump.isSome) eq).trans⟩

/-! ### Expressions and types -/

theorem always_resolveType (id : NodeId) : Always P (Resolution.resolveType id) :=
  inv.pools.resolveType (inv.always_reportAt · id) fun _ => inv.always_modifyFacts _ fun _ => ⟨rfl, fun _ => rfl, fun h => h, fun h => h⟩

theorem always_validateLiteral (literal : Literal) : Always P (validateLiteral literal) :=
  Always.bind (inv.always_onPool _) fun _ => Always.bind (inv.always_onPool _) fun _ => Always.pure _

theorem always_binaryConstant (op : BinaryOp) (lhs rhs : NodeId) :
    Always P (binaryConstant op lhs rhs) := by
  refine Always.bind (always_facts _) fun left => Always.bind (always_facts _) fun right => ?_
  split
  · exact inv.always_onPool _
  · exact Always.pure _

theorem always_settleExpr (id : NodeId) (req : Option ConstId) (ty : ConstId)
    (k : Option ConstId) : Always P (settleExpr id req ty k) := by
  refine Always.bind (inv.always_modifyFacts _ fun _ => ⟨rfl, fun _ => rfl, fun h => h, fun h => h⟩) fun _ => ?_
  cases req with
  | none => exact Always.pure _
  | some req =>
    refine Always.bind (inv.always_onPool _) fun fit =>
      Always.bind (inv.always_modifyFacts _ fun _ => ⟨rfl, fun h => h, fun h => h, fun h => h⟩) fun _ => ?_
    split
    · exact Always.pure _
    · exact Always.bind (LookLogic.always.describe _) fun _ =>
        Always.bind (LookLogic.always.describe _) fun _ => inv.steps.refuse _ _ _ _

/-! ### Statements -/

theorem always_jumpResolve (id : NodeId) : Always P (Jump.resolve id) := by
  refine Always.bind always_tree fun tree => ?_
  split
  · exact Always.pure _
  · split
    · exact Always.pure _
    · dsimp only
      split
      · exact inv.steps.refuse _ _ _ _
      · exact Always.bind (inv.always_labelScope _) fun _ =>
          Always.bind (inv.always_modifyFacts _ fun _ => by
            split <;> exact ⟨rfl, fun h => h, fun h => h, fun h => h⟩) fun _ =>
          Always.bind (inv.always_modifyFacts _ fun _ => ⟨rfl, fun h => h, fun h => h, fun _ => rfl⟩) fun _ =>
            Always.pure _

end StillInvariant

/-! ### Stages -/

namespace Stage

variable {fst snd third : Stage}

theorem isUpTo_refl (stage : Stage) : stage.isUpTo stage = true := by simp [isUpTo]

theorem isUpTo_trans (he : fst.isUpTo snd = true) (later : snd.isUpTo third = true) :
    fst.isUpTo third = true := by
  simp only [isUpTo, decide_eq_true_eq] at he later ⊢
  exact Nat.le_trans he later

theorem eq_failed_of_isUpTo (later : Stage.failed.isUpTo snd = true) : snd = .failed := by
  cases snd <;> simp_all [isUpTo, rank]

end Stage

theorem Tree.Peels.sameShape {s tree x : Tree} (peels : s.Peels tree)
    (shape : tree.SameShape x) : s.Peels x where
  root := shape.root.trans peels.root
  size := shape.size.trans peels.size
  forms id := by
    rw [shape.form]
    exact peels.forms id
  parents id hs := by
    rw [shape.parent]
    exact peels.parents id hs

theorem Tree.Peels.isSome_type? {s tree : Tree} (peels : s.Peels tree) (id : NodeId) :
    (tree.type? id).isSome = (s.type? id).isSome := by
  obtain ⟨ren, form, -⟩ := peels.forms id
  rw [type?, type?, form]
  cases s.form? id with
  | none => rfl
  | some form => cases form <;> simp [Form.mapChildren, Form.mapChildrenM, Form.type?]

/-- What is noted at a valid node of a tree that was built so. -/
structure Tree.Noted (s : Tree) (id : NodeId) (facts : Facts) : Prop where
  expr : ∀ expr, s.expr? id = some expr → (∀ i, expr ≠ .paren i) → facts.type.isSome
  type : (s.type? id).isSome → facts.type.isSome
  name : ∀ name, s.expr? id = some (.name name) → facts.binding.isSome
  jump : ∀ stmt, s.stmt? id = some stmt → stmt.jump?.isSome → facts.jump.isSome

namespace Tree.Noted

variable {s : Tree} {id : NodeId} {facts later : Facts}

theorem mono (noted : s.Noted id facts) (retains : facts.Retains later) : s.Noted id later where
  expr expr hf bare := retains.type (noted.expr expr hf bare)
  type isType := retains.type (noted.type isType)
  name name hf := retains.binding (noted.name name hf)
  jump stmt hf isJump := retains.jump (noted.jump stmt hf isJump)

theorem of_expr {expr : Expr} (hf : s.expr? id = some expr)
    (typed : (∀ i, expr ≠ .paren i) → facts.type.isSome)
    (bound : ∀ name, expr = .name name → facts.binding.isSome) : s.Noted id facts where
  expr x here := by
    cases hf.symm.trans here
    exact typed
  type isType := by
    obtain ⟨ty, here⟩ := Option.isSome_iff_exists.mp isType
    simp [s.expr?_of_type here] at hf
  name name here := bound name (Option.some.inj (hf.symm.trans here))
  jump stmt here := by simp [s.stmt?_of_expr hf] at here

theorem of_type {expr : TypeExpr} (hf : s.type? id = some expr) (typed : facts.type.isSome) :
    s.Noted id facts where
  expr x here := by simp [s.expr?_of_type hf] at here
  type _ := typed
  name name here := by simp [s.expr?_of_type hf] at here
  jump stmt here := by simp [s.stmt?_of_type hf] at here

theorem of_stmt {stmt : Stmt} (hf : s.stmt? id = some stmt)
    (bound : stmt.jump?.isSome → facts.jump.isSome) : s.Noted id facts where
  expr x here := by simp [s.stmt?_of_expr here] at hf
  type isType := by
    obtain ⟨ty, here⟩ := Option.isSome_iff_exists.mp isType
    simp [s.stmt?_of_type here] at hf
  name name here := by simp [s.stmt?_of_expr here] at hf
  jump x here := by
    cases hf.symm.trans here
    exact bound

end Tree.Noted

theorem Tree.retains_setStage (tree : Tree) (id x : NodeId) (stage : Stage) :
    (tree.facts x).Retains ((tree.setStage id stage).facts x) := by
  unfold setStage
  rcases tree.facts_modify_cases id x fun facts => { facts with stage } with eq | ⟨-, eq⟩ <;> rw [eq]
  · exact .refl _
  · exact ⟨fun h => h, fun h => h, fun h => h⟩

namespace Work

theorem sameShape_withScope (w : Work) (own : NodeId) :
    w.tree.SameShape (w.withScope own).tree := by
  unfold withScope Tree.labelScope
  dsimp only
  split
  · exact .refl _
  · exact Tree.SameShape.modifyFacts w.tree own fun facts => { facts with labelScope := some w.labels }

theorem retains_withScope (w : Work) (own id : NodeId) :
    (w.tree.facts id).Retains ((w.withScope own).tree.facts id) := by
  refine ⟨fun h => ?_, fun h => ?_, fun h => ?_⟩
  · rwa [w.facts_withScope_of Facts.type fun _ _ => rfl]
  · rwa [w.facts_withScope_of Facts.binding fun _ _ => rfl]
  · rwa [w.facts_withScope_of Facts.jump fun _ _ => rfl]

/-- A node that is valid, whether it is emitted yet or not. -/
def Passed (w : Work) (id : NodeId) : Prop := (w.tree.stage id).hasReached .validated = true

/-- A node that can still become valid. -/
def Open (w : Work) (id : NodeId) : Prop := (w.tree.stage id).isUpTo .validating = true

variable {w : Work} {id : NodeId}

theorem passed_iff : w.Passed id ↔ w.tree.stage id = .validated ∨ w.tree.stage id = .emitted := by
  unfold Passed
  cases w.tree.stage id <;> simp [Stage.hasReached, Stage.isUpTo, Stage.rank]

theorem Open.not_passed (ho : w.Open id) : ¬w.Passed id := by
  unfold Open at ho
  rw [passed_iff]
  rintro (stage | stage) <;> simp [stage, Stage.isUpTo, Stage.rank] at ho

theorem Open.not_failed (ho : w.Open id) : w.tree.stage id ≠ .failed := by
  intro stage
  simp [Open, stage, Stage.isUpTo, Stage.rank] at ho

theorem open_iff : w.Open id ↔ ¬w.Passed id ∧ w.tree.stage id ≠ .failed := by
  unfold Open Passed
  cases w.tree.stage id <;> simp [Stage.hasReached, Stage.isUpTo, Stage.rank]

/-- Parentheses that are valid have given up their place, but for those around everything else. -/
def Gone (s : Tree) (r : NodeId) (w : Work) (id : NodeId) : Prop :=
  id ≠ r ∧ w.Passed id ∧ ∃ i, s.expr? id = some (.paren i)

theorem Open.not_gone {s : Tree} {r : NodeId} (ho : w.Open id) : ¬w.Gone s r id :=
  fun gone => ho.not_passed gone.2.1

/-- Children are linked to the nodes that list them, unless those are gone. Only what is gone lists
what is gone. -/
structure Tidy (s : Tree) (r : NodeId) (w : Work) : Prop where
  top : w.tree.parent? r = none
  linked : ∀ id c, s.Below r id → ¬w.Gone s r id → c ∈ w.tree.children id → w.tree.parent? c = some id
  gone : ∀ id c, s.Below r id → c ∈ w.tree.children id → w.Gone s r c → w.Gone s r id

namespace Tidy

variable {s : Tree} {r : NodeId} {t : Work} (tidy : w.Tidy s r)

include tidy

theorem keep (shape : w.tree.SameShape t.tree) (eq : ∀ id, t.Gone s r id ↔ w.Gone s r id) :
    t.Tidy s r where
  top := by rw [shape.parent, tidy.top]
  linked id c hb stays mem := by
    rw [shape.children] at mem
    rw [shape.parent]
    exact tidy.linked id c hb (mt (eq id).mpr stays) mem
  gone id c hb mem gone := by
    rw [shape.children] at mem
    exact (eq id).mpr (tidy.gone id c hb mem ((eq c).mp gone))

theorem keep_others (shape : w.tree.SameShape t.tree) (b : ¬w.Gone s r id) (now : ¬t.Gone s r id)
    (others : ∀ x, x ≠ id → t.tree.stage x = w.tree.stage x) : t.Tidy s r := by
  refine tidy.keep shape fun x => ?_
  by_cases eq : x = id
  · rw [eq]
    exact iff_of_false now b
  · rw [Gone, Gone, Passed, Passed, others x eq]

/-- What is in parentheses takes their place. -/
theorem replace {tree : Tree} {par node held : NodeId} (hb : s.Below r id)
    (stays : ¬w.Gone s r id) (up : w.tree.parent? id = some par) (ne : node ≠ id)
    (hi : node ∈ w.tree.children id) (core : ¬w.Gone s r node)
    (paren : s.expr? id = some (.paren held)) (replaces : w.tree.Replaces tree par id node)
    (link : tree.parent? node = some par) (shape : tree.SameShape t.tree) (hp : t.Passed id)
    (stages : ∀ x, x ≠ id → t.tree.stage x = w.tree.stage x) : t.Tidy s r := by
  have here : t.Gone s r id := ⟨fun eq => by simp [eq, tidy.top] at up, hp, held, paren⟩
  have others : ∀ x, x ≠ id → (t.Gone s r x ↔ w.Gone s r x) :=
    fun x ne => by rw [Gone, Gone, Passed, Passed, stages x ne]
  have owned := tidy.linked id node hb stays hi
  have listed : ∀ {own c : NodeId}, c ∈ t.tree.children own → own = par ∧ c = node ∨
        c ∈ w.tree.children own ∧ (own = par → c ≠ id) := by
    intro own c mem
    rw [shape.children] at mem
    by_cases eq : own = par
    · rw [eq, replaces.children_parent] at mem
      obtain ⟨old, hi, rfl⟩ := List.mem_map.mp mem
      rw [eq]
      split
      · exact .inl ⟨rfl, rfl⟩
      · rename_i ne
        exact .inr ⟨hi, fun _ => ne⟩
    · rw [replaces.children_other eq] at mem
      exact .inr ⟨mem, fun he => absurd he eq⟩
  have fits : ∀ {own c : NodeId}, s.Below r own → ¬t.Gone s r own →
      c ∈ w.tree.children own → (own = par → c ≠ id) →
      c ≠ id ∧ c ≠ node ∧ w.tree.parent? c = some own := by
    intro own c hb remains mem kept
    have apart : own ≠ id := by
      rintro rfl
      exact remains here
    have lk := tidy.linked own c hb (mt (others own apart).mpr remains) mem
    refine ⟨?_, ?_, lk⟩
    · rintro rfl
      exact kept (Option.some.inj (lk.symm.trans up)) rfl
    · rintro rfl
      exact apart (Option.some.inj (lk.symm.trans owned))
  refine ⟨?_, fun own c hb stays mem => ?_, fun own c hb mem gone => ?_⟩
  · rw [shape.parent, replaces.parents r here.1.symm, tidy.top]
    rintro rfl
    simp [tidy.top] at owned
  · rcases listed mem with ⟨rfl, rfl⟩ | ⟨hi, kept⟩
    · rw [shape.parent, link]
    · obtain ⟨notOld, notNew, lk⟩ := fits hb stays hi kept
      rw [shape.parent, replaces.parents c notOld notNew, lk]
  · by_contra stays
    have was : c ≠ id → w.Gone s r c := fun ne => (others c ne).mp gone
    rcases listed mem with ⟨rfl, rfl⟩ | ⟨hi, kept⟩
    · exact core (was ne)
    · have gone := tidy.gone own c hb hi (was (fits hb stays hi kept).1)
      by_cases eq : own = id
      · exact stays (eq ▸ here)
      · exact stays ((others own eq).mpr gone)

end Tidy

/-- How the stages of a tree that was built as `start` hang together. -/
structure Staged (s : Tree) (r : NodeId) (w : Work) : Prop where
  peels : s.Peels w.tree
  hosted : ∀ id, w.Passed id → (s.stmt? id).isSome → s.Hosts r id
  parts : ∀ id part, s.Below r id → w.Passed id → part ∈ s.children id → w.Passed part
  peeled : ∀ id part, s.Below r id → part ∈ s.children id → part ∈ w.tree.children id ∨ w.Passed part
  /-- What stands in parentheses is emitted only once they are valid. -/
  wrapped : ∀ id i, s.Below r id → s.Strips id i → w.tree.stage i = .emitted → w.Passed id
  /-- A container that failed has a member that is no valid statement. -/
  spoiled : w.tree.stage r = .failed → ∀ name members, s.stmt? r = some (.container name members) →
    ∃ mem ∈ members, (s.stmt? mem).isSome → w.tree.stage mem = .failed
  tidy : w.Tidy s r

/-- What work on the nodes before `top` may do: no node is moved back, and what is valid stays valid
unless its parent comes before `reach`. -/
structure Onward (s : Tree) (top reach : Nat) (b t : Work) : Prop where
  forward : ∀ id, (b.tree.stage id).isUpTo (t.tree.stage id) = true
  above : ∀ id, top ≤ id.index → t.tree.stage id = b.tree.stage id
  unsent : ∀ id, t.tree.stage id = .emitted → b.tree.stage id = .emitted
  passed : ∀ id, b.Passed id → t.Passed id ∨ ∃ up, s.parent? id = some up ∧ up.index < reach
  /-- Everything is noted at a node that becomes valid. -/
  noted : ∀ id, (b.Passed id → s.Noted id (b.tree.facts id)) → t.Passed id → s.Noted id (t.tree.facts id)

namespace Onward

variable {s : Tree} {top reach : Nat} {b mid t : Work}

theorem refl (s : Tree) (top reach : Nat) (w : Work) : w.Onward s top reach w where
  forward _ := Stage.isUpTo_refl _
  above _ _ := rfl
  unsent _ sent := sent
  passed _ hp := .inl hp
  noted _ noted := noted

theorem trans (he : b.Onward s top reach mid)
    (later : mid.Onward s top reach t) : b.Onward s top reach t where
  forward id := Stage.isUpTo_trans (he.forward id) (later.forward id)
  above id high := (later.above id high).trans (he.above id high)
  unsent id sent := he.unsent id (later.unsent id sent)
  passed id hp := by
    rcases he.passed id hp with hp | lost
    · exact later.passed id hp
    · exact .inr lost
  noted id noted := later.noted id (he.noted id noted)

theorem widen (onward : b.Onward s top reach t) {top' reach' : Nat} (higher : top ≤ top')
    (hfu : reach ≤ reach') : b.Onward s top' reach' t where
  forward := onward.forward
  above id high := onward.above id (Nat.le_trans higher high)
  unsent := onward.unsent
  passed id hp := (onward.passed id hp).imp_right fun ⟨up, hf, low⟩ =>
    ⟨up, hf, Nat.lt_of_lt_of_le low hfu⟩
  noted := onward.noted

/-- A part of a node that lies beyond reach stays valid. -/
theorem part (onward : b.Onward s top reach t) {part own : NodeId}
    (owned : s.parent? part = some own) (beyond : reach ≤ own.index)
    (hp : b.Passed part) : t.Passed part := by
  rcases onward.passed part hp with hp | ⟨up, hf, low⟩
  · exact hp
  · cases owned.symm.trans hf
    omega

theorem failed (onward : b.Onward s top reach t) {id : NodeId}
    (hx : b.tree.stage id = .failed) : t.tree.stage id = .failed := by
  have forward := onward.forward id
  rw [hx] at forward
  exact Stage.eq_failed_of_isUpTo forward

theorem ofOne {id : NodeId} (low : id.index < top)
    (here : (b.tree.stage id).isUpTo (t.tree.stage id) = true)
    (unsent : t.tree.stage id = .emitted → b.tree.stage id = .emitted)
    (hp : b.Passed id → t.Passed id ∨ ∃ up, s.parent? id = some up ∧ up.index < reach)
    (others : ∀ x, x ≠ id → t.tree.stage x = b.tree.stage x)
    (retains : ∀ x, (b.tree.facts x).Retains (t.tree.facts x))
    (noted : t.Passed id → s.Noted id (b.tree.facts id)) : b.Onward s top reach t where
  forward x := by
    by_cases eq : x = id
    · rw [eq]
      exact here
    · rw [others x eq]
      exact Stage.isUpTo_refl _
  above x high := others x (by rintro rfl; omega)
  unsent x sent := by
    by_cases eq : x = id
    · rw [eq] at sent ⊢
      exact unsent sent
    · rwa [others x eq] at sent
  passed x wasPassed := by
    by_cases eq : x = id
    · rw [eq] at wasPassed ⊢
      exact hp wasPassed
    · left
      unfold Passed at wasPassed ⊢
      rwa [others x eq]
  noted x wasNoted hp := by
    by_cases eq : x = id
    · rw [eq] at hp ⊢
      exact (noted hp).mono (retains id)
    · exact (wasNoted (by rwa [Passed, ← others x eq])).mono (retains x)

end Onward

namespace Staged

variable {s : Tree} {r : NodeId} {t : Work} (hst : w.Staged s r)

include hst

/-- Stages may change as long as nothing becomes or ceases to be valid or failed. -/
theorem keep (shape : w.tree.SameShape t.tree) (hp : ∀ id, t.Passed id ↔ w.Passed id)
    (sent : ∀ i, t.tree.stage i = .emitted → w.tree.stage i = .emitted ∨
      ∀ id, s.Below r id → s.Strips id i → w.Passed id)
    (hx : ∀ id, t.tree.stage id = .failed ↔ w.tree.stage id = .failed) : t.Staged s r where
  peels := hst.peels.sameShape shape
  hosted id passedNow := hst.hosted id ((hp id).mp passedNow)
  parts id part hb passedNow mem :=
    (hp part).mpr (hst.parts id part hb ((hp id).mp passedNow) mem)
  peeled id part hb mem := by
    rw [shape.children, hp]
    exact hst.peeled id part hb mem
  wrapped id i hb strips emitted := by
    rw [hp]
    rcases sent i emitted with b | unwrapped
    · exact hst.wrapped id i hb strips b
    · exact unwrapped id hb strips
  spoiled failedRoot name members hf := by
    obtain ⟨mem, hi, spoils⟩ := hst.spoiled ((hx r).mp failedRoot) name members hf
    exact ⟨mem, hi, fun hs => (hx mem).mpr (spoils hs)⟩
  tidy := hst.tidy.keep shape fun id => by rw [Gone, Gone, hp]

theorem keep_alike (shape : w.tree.SameShape t.tree)
    (stages : ∀ id, t.tree.stage id = w.tree.stage id) : t.Staged s r := by
  refine hst.keep shape (fun id => ?_) (fun id => ?_) (fun id => ?_)
  · rw [Passed, Passed, stages]
  · rw [stages]
    exact .inl
  · rw [stages]

theorem keep_open {id : NodeId} (shape : w.tree.SameShape t.tree) (ho : w.Open id)
    (still : t.Open id)
    (others : ∀ x, x ≠ id → t.tree.stage x = w.tree.stage x) : t.Staged s r := by
  refine hst.keep shape (fun x => ?_) (fun x sent => ?_) (fun x => ?_)
  · by_cases eq : x = id
    · rw [eq]
      exact ⟨fun hp => absurd hp still.not_passed, fun hp => absurd hp ho.not_passed⟩
    · rw [Passed, Passed, others x eq]
  · by_cases eq : x = id
    · rw [eq] at sent
      exact absurd (passed_iff.mpr (.inr sent)) still.not_passed
    · rw [others x eq] at sent
      exact .inl sent
  · by_cases eq : x = id
    · rw [eq]
      exact ⟨fun hx => absurd hx still.not_failed, fun hx => absurd hx ho.not_failed⟩
    · rw [others x eq]

/-- A node becomes valid once all its parts are. It may give up its place meanwhile. -/
theorem pass {id : NodeId} (notFailed : w.tree.stage id ≠ .failed) (peels : s.Peels t.tree)
    (tidy : t.Tidy s r) (hosted : (s.stmt? id).isSome → s.Hosts r id)
    (ps : ∀ part ∈ s.children id, w.Passed part)
    (children : ∀ x part, part ∈ w.tree.children x → part ∈ t.tree.children x ∨ part = id)
    (passedHere : t.Passed id)
    (bare : t.tree.stage id = .emitted → ∀ x, s.Below r x → s.Strips x id → x = id)
    (others : ∀ x, x ≠ id → t.tree.stage x = w.tree.stage x) : t.Staged s r := by
  have lasts : ∀ x, w.Passed x → t.Passed x := by
    intro x hp
    by_cases eq : x = id
    · rwa [eq]
    · unfold Passed at hp ⊢
      rwa [others x eq]
  have stems : ∀ x, x ≠ id → t.Passed x → w.Passed x := by
    intro x ne hp
    unfold Passed at hp ⊢
    rwa [others x ne] at hp
  refine ⟨peels, ?_, ?_, ?_, ?_, ?_, tidy⟩
  · intro x hp
    by_cases eq : x = id
    · rwa [eq]
    · exact hst.hosted x (stems x eq hp)
  · intro x part hb hp mem
    by_cases eq : x = id
    · rw [eq] at mem
      exact lasts part (ps part mem)
    · exact lasts part (hst.parts x part hb (stems x eq hp) mem)
  · intro x part hb mem
    rcases hst.peeled x part hb mem with hi | hp
    · rcases children x part hi with hi | rfl
      · exact .inl hi
      · exact .inr passedHere
    · exact .inr (lasts part hp)
  · intro x i hb strips sent
    by_cases eq : i = id
    · rw [eq] at strips sent
      rwa [bare sent x hb strips]
    · rw [others i eq] at sent
      exact lasts x (hst.wrapped x i hb strips sent)
  · intro hx name members hf
    have ne : r ≠ id := by
      rintro rfl
      simp [passed_iff, hx] at passedHere
    rw [others r ne] at hx
    obtain ⟨mem, hi, spoils⟩ := hst.spoiled hx name members hf
    refine ⟨mem, hi, fun hs => ?_⟩
    have failedMember := spoils hs
    have notHere : mem ≠ id := by
      rintro rfl
      exact notFailed failedMember
    rw [others mem notHere]
    exact failedMember

/-- A node fails whose parent is not valid and still has it as its child. -/
theorem fail {id : NodeId} (shape : w.tree.SameShape t.tree) (stays : ¬w.Gone s r id)
    (alone : ∀ up, s.Below r up → id ∈ s.children up →
      ¬w.Passed up ∧ id ∈ w.tree.children up)
    (unsent : ∀ i, s.Strips id i → i ≠ id → w.tree.stage i ≠ .emitted)
    (spoiled : id = r → ∀ name members, s.stmt? r = some (.container name members) →
      ∃ mem ∈ members, (s.stmt? mem).isSome → w.tree.stage mem = .failed)
    (here : t.tree.stage id = .failed) (others : ∀ x, x ≠ id → t.tree.stage x = w.tree.stage x) :
    t.Staged s r := by
  have stems : ∀ x, t.Passed x → x ≠ id ∧ w.Passed x := by
    intro x hp
    have ne : x ≠ id := by
      rintro rfl
      simp [passed_iff, here] at hp
    refine ⟨ne, ?_⟩
    unfold Passed at hp ⊢
    rwa [others x ne] at hp
  have lasts : ∀ x, x ≠ id → w.Passed x → t.Passed x := by
    intro x ne hp
    unfold Passed at hp ⊢
    rwa [others x ne]
  have failedLasts : ∀ x, w.tree.stage x = .failed → t.tree.stage x = .failed := by
    intro x hx
    by_cases eq : x = id
    · rwa [eq]
    · rwa [others x eq]
  refine ⟨hst.peels.sameShape shape, ?_, ?_, ?_, ?_, ?_, hst.tidy.keep_others shape stays
    (fun gone => (stems id gone.2.1).1 rfl) others⟩
  · exact fun x hp => hst.hosted x (stems x hp).2
  · intro x part hb hp mem
    refine lasts part ?_ (hst.parts x part hb (stems x hp).2 mem)
    rintro rfl
    exact (alone x hb mem).1 (stems x hp).2
  · intro x part hb mem
    rw [shape.children]
    by_cases eq : part = id
    · rw [eq] at mem ⊢
      exact .inl (alone x hb mem).2
    · exact (hst.peeled x part hb mem).imp_right (lasts part eq)
  · intro x i hb strips sent
    have ne : i ≠ id := by
      rintro rfl
      simp [here] at sent
    rw [others i ne] at sent
    refine lasts x ?_ (hst.wrapped x i hb strips sent)
    rintro rfl
    exact unsent i strips ne sent
  · intro hx name members hf
    by_cases eq : r = id
    · obtain ⟨mem, hi, spoils⟩ := spoiled eq.symm name members hf
      exact ⟨mem, hi, fun hs => failedLasts mem (spoils hs)⟩
    · rw [others r eq] at hx
      obtain ⟨mem, hi, spoils⟩ := hst.spoiled hx name members hf
      exact ⟨mem, hi, fun hs => failedLasts mem (spoils hs)⟩

theorem alone_of_open {id up : NodeId} (ho : w.Open id) (above : s.Below r up)
    (mem : id ∈ s.children up) : ¬w.Passed up ∧ id ∈ w.tree.children up :=
  ⟨fun hp => ho.not_passed (hst.parts up id above hp mem),
    (hst.peeled up id above mem).resolve_right ho.not_passed⟩

theorem link_of_open {id : NodeId} (hb : s.Below r id) (ho : w.Open id) :
    id = r ∨ ∃ up, w.tree.parent? id = some up ∧ id ∈ w.tree.children up := by
  cases hb with
  | root => exact .inl rfl
  | child above mem =>
    obtain ⟨notPassed, listed⟩ := hst.alone_of_open ho above mem
    exact .inr ⟨_, hst.tidy.linked _ id above (fun gone => notPassed gone.2.1) listed, listed⟩

theorem passed_of_strips {id new : NodeId} (hb : s.Below r id) (hs : s.Strips id new)
    (hp : w.Passed id) : w.Passed new := by
  induction hs with
  | self => exact hp
  | @paren id i new held _ _ ih =>
    have mem : i ∈ s.children id := by simp [s.children_of_expr held, Expr.children]
    exact ih (hb.child mem) (hst.parts id i hb hp mem)

theorem fail_open {id : NodeId} (hb : s.Below r id) (ho : w.Open id)
    (shape : w.tree.SameShape t.tree)
    (spoiled : id = r → ∀ name members, s.stmt? r = some (.container name members) →
      ∃ mem ∈ members, (s.stmt? mem).isSome → w.tree.stage mem = .failed)
    (here : t.tree.stage id = .failed) (others : ∀ x, x ≠ id → t.tree.stage x = w.tree.stage x) :
    t.Staged s r := by
  refine hst.fail shape ho.not_gone (fun up => hst.alone_of_open ho) (fun i hs _ sent => ?_)
    spoiled here others
  exact ho.not_passed (hst.wrapped id i hb hs sent)

theorem fail_plain {id : NodeId} (hp : s.stmt? id = none)
    (bare : ∀ i, s.expr? id ≠ some (.paren i)) (ho : w.Open id)
    (shape : w.tree.SameShape t.tree) (here : t.tree.stage id = .failed)
    (others : ∀ x, x ≠ id → t.tree.stage x = w.tree.stage x) : t.Staged s r := by
  refine hst.fail shape ho.not_gone (fun up => hst.alone_of_open ho) (fun i hs ne => ?_)
    (fun eq name members hf => ?_) here others
  · cases hs with
    | self => exact absurd rfl ne
    | paren held => exact absurd held (bare _)
  · rw [← eq, hp] at hf
    simp at hf

end Staged

end Work

end TreeCompiler
