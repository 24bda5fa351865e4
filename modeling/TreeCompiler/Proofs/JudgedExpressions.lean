import TreeCompiler.Proofs.ExpressionFrames
import TreeCompiler.Proofs.FoldedConstants
import TreeCompiler.Proofs.ResolvedTypes

/-!
# What is noted at expressions

An expression that is found to be constant evaluates to that constant, whatever its locals are, and
the value has the type that the expression is given. An expression without locals that is not found
to be constant is at fault.
-/

namespace TreeCompiler

open Step PoolM WorkM Evaluation Validation

/-- What values of a class look like. -/
theorem Term.Is.of_name {v : Term} {name : String} (is : v.Is (namedType name)) :
    (name = "Int" → ∃ number, v = node (.int number) []) ∧
    (name = "Boolean" → ∃ truth, v = Term.bool truth) ∧
    (name = "Char" → ∃ char, v = node (.char char) []) ∧
    (name = "String" → ∃ text, v = node (.string text) []) := by
  generalize eq : namedType name = ty at is
  cases is with
  | tuple => simp [namedType, tupleType] at eq
  | _ =>
    simp only [namedType, Term.node.injEq, Constant.type.injEq, TypeConstant.named.injEq, and_true] at eq
    subst eq
    simp

namespace Evaluation

/-- An evaluation that ends with a value of a type or with a fault. -/
def Ends (evaluation : Evaluation Term) (ty : Term) : Prop :=
  (∃ v, evaluation = pure v ∧ v.Is ty) ∨ ∃ fault, evaluation = throw fault

theorem ends_pure {v ty : Term} (is : v.Is ty) : Ends (pure v) ty := .inl ⟨_, rfl, is⟩

theorem ends_throw (fault : Fault) (ty : Term) : Ends (throw fault) ty := .inr ⟨_, rfl⟩

theorem ends_exactly (number : Int) : Ends (exactly number) (.namedType "Int") := by
  unfold exactly
  split
  · exact ends_pure (.int _)
  · exact ends_throw _ _

/-- The operand and result types of operators that are not logical. -/
inductive Suits : BinaryOp → Term → Term → Term → Prop
  | number {op : BinaryOp} (arithmetic : op ∈ [.add, .sub, .mul, .div, .mod]) :
    Suits op (.namedType "Int") (.namedType "Int") (.namedType "Int")
  | order {op : BinaryOp} {name : String} (compares : op ∈ [.lt, .le, .gt, .ge])
    (ordered : name = "Int" ∨ name = "Char") :
    Suits op (.namedType name) (.namedType name) (.namedType "Boolean")
  | equality {op : BinaryOp} (tests : op ∈ [.eq, .ne]) (left right : Term) :
    Suits op left right (.namedType "Boolean")
  | join {left right : Term} (text : left = .namedType "String" ∨ right = .namedType "String") :
    Suits .add left right (.namedType "String")

/-- Values of a type that fits an operator are fit for it. -/
theorem Suits.of_fits {op : BinaryOp} {left right res fst snd : Term}
    (suits : Suits op left right res) (fitsLeft : fst.Fits left) (fitsRight : snd.Fits right) :
    Suits op fst snd res := by
  cases suits with
  | number arithmetic =>
    rw [fitsLeft.eq_of_named (by decide), fitsRight.eq_of_named (by decide)]
    exact .number arithmetic
  | order compares ordered =>
    have hp : ∀ {name : String}, name = "Int" ∨ name = "Char" → name ≠ "Object" := by
      rintro _ (rfl | rfl) <;> decide
    rw [fitsLeft.eq_of_named (hp ordered), fitsRight.eq_of_named (hp ordered)]
    exact .order compares ordered
  | equality tests => exact .equality tests _ _
  | join text =>
    refine .join (text.imp ?_ ?_)
    · rintro rfl
      exact fitsLeft.eq_of_named (by decide)
    · rintro rfl
      exact fitsRight.eq_of_named (by decide)

theorem ends_applyBinary {op : BinaryOp} {left right leftType rightType res : Term}
    (suits : Suits op leftType rightType res) (isLeft : left.Is leftType)
    (isRight : right.Is rightType) : Ends (applyBinary op left right) res := by
  cases suits with
  | number arithmetic =>
    obtain ⟨a, rfl⟩ := isLeft.of_name.1 rfl
    obtain ⟨b, rfl⟩ := isRight.of_name.1 rfl
    simp only [List.mem_cons, List.not_mem_nil, or_false] at arithmetic
    rcases arithmetic with rfl | rfl | rfl | rfl | rfl
    · exact ends_exactly _
    · exact ends_exactly _
    · exact ends_exactly _
    · show Ends (if b = 0 then _ else _) _
      split
      · exact ends_throw _ _
      · exact ends_exactly _
    · show Ends (if b = 0 then _ else if _ then _ else _) _
      split
      · exact ends_throw _ _
      · split
        · exact ends_throw _ _
        · exact ends_exactly _
  | order compares ordered =>
    simp only [List.mem_cons, List.not_mem_nil, or_false] at compares
    rcases ordered with rfl | rfl
    · obtain ⟨a, rfl⟩ := isLeft.of_name.1 rfl
      obtain ⟨b, rfl⟩ := isRight.of_name.1 rfl
      rcases compares with rfl | rfl | rfl | rfl <;> exact ends_pure (.bool _)
    · obtain ⟨a, rfl⟩ := isLeft.of_name.2.2.1 rfl
      obtain ⟨b, rfl⟩ := isRight.of_name.2.2.1 rfl
      rcases compares with rfl | rfl | rfl | rfl <;> exact ends_pure (.bool _)
  | equality tests =>
    simp only [List.mem_cons, List.not_mem_nil, or_false] at tests
    rcases tests with rfl | rfl <;> exact ends_pure (.bool _)
  | join text =>
    rcases text with rfl | rfl
    · obtain ⟨a, rfl⟩ := isLeft.of_name.2.2.2 rfl
      cases isRight with
      | string b => exact ends_pure (.string _)
      | _ => exact ends_throw _ _
    · obtain ⟨b, rfl⟩ := isRight.of_name.2.2.2 rfl
      cases isLeft with
      | string a => exact ends_pure (.string _)
      | _ => exact ends_throw _ _

/-- The class of the operand and the result of an operator. -/
def className : UnaryOp → String
  | .not => "Boolean"
  | .neg => "Int"

theorem ends_applyUnary {v : Term} {op : UnaryOp} (is : v.Is (.namedType (className op))) :
    Ends (applyUnary op v) (.namedType (className op)) := by
  cases op with
  | not =>
    obtain ⟨truth, rfl⟩ := is.of_name.2.1 rfl
    exact ends_pure (.bool _)
  | neg =>
    obtain ⟨number, rfl⟩ := is.of_name.1 rfl
    exact ends_exactly _

end Evaluation

/-! ### What is said about an expression -/

/-- No local is named under a node. -/
def Tree.Closed (tree : Tree) (id : NodeId) : Prop :=
  ∀ x decl, tree.Below id x → (tree.facts x).binding ≠ some (.localDecl decl)

/-- The type and the constant of an expression are borne out by its evaluation. -/
structure Judged (p : Pool) (closed : Prop) (wanted : Option Term)
    (evaluate : (NodeId → Term) → Evaluation Term) (ty : ConstId) (k : Option ConstId) :
    Prop where
  known : ∀ id, k = some id → ∃ v is given, p.Means id v ∧ v.Is is ∧
    p.Means ty given ∧ is.Fits given ∧ (∀ want, wanted = some want → is.Fits want) ∧
    ∀ locals, evaluate locals = pure v
  unknown : k = none → closed → ∀ locals, ∃ fault, evaluate locals = throw fault

namespace Judged

variable {b t₁ : Pool} {closed : Prop} {wanted : Option Term}
  {evaluate : (NodeId → Term) → Evaluation Term} {ty : ConstId} {k : Option ConstId}

theorem grown (judged : Judged b closed wanted evaluate ty k)
    (larger : t₁.Extends b) : Judged t₁ closed wanted evaluate ty k where
  known id hf := by
    obtain ⟨v, is, given, means, hasType, meansType, rest⟩ := judged.known id hf
    exact ⟨v, is, given, means.extends larger, hasType, meansType.extends larger, rest⟩
  unknown := judged.unknown

theorem of_reflects {evaluation : Evaluation Term} {folded : Option ConstId} {term : Term}
    (reflects : Reflects evaluation folded t₁) (ends : Ends evaluation term)
    (meansType : t₁.Means ty term) (eq : ∀ locals, evaluate locals = evaluation) :
    Judged t₁ closed none evaluate ty folded := by
  rcases ends with ⟨v, hf, is⟩ | ⟨fault, hf⟩
  · obtain ⟨id, rfl, means⟩ := reflects.1 v hf
    refine ⟨?_, by simp⟩
    rintro _ ⟨⟩
    exact ⟨v, term, term, means, is, meansType, .refl _, by simp, fun locals => (eq locals).trans hf⟩
  · refine ⟨?_, fun _ _ locals => ⟨fault, (eq locals).trans hf⟩⟩
    rw [reflects.2 fault hf]
    simp

/-- What is not constant because a part is not. -/
theorem of_part (fails : closed → ∀ locals, ∃ fault, evaluate locals = throw fault) :
    Judged t₁ closed wanted evaluate ty none :=
  ⟨by simp, fun _ => fails⟩

end Judged

/-- An expression that validation has not come to, in a tree whose nodes have places of their
own. -/
structure Tree.Untouched (s : Tree) (r id : NodeId) : Prop where
  linked : s.IsLinked r
  below : s.Below r id
  distinct : ∀ x, s.Below id x → (s.children x).Nodup
  fresh : ∀ x, s.Below id x → s.stage x ≠ .failed ∧ (s.stage x).hasReached .validated = false

theorem Tree.untouched_of_table {tree : Tree} {r : NodeId} (small : tree.size ≤ UInt32.size)
    (top : tree.parent? r = none) (table : ∀ i < tree.size, (tree.stage ⟨i⟩ ≠ .failed ∧
        (tree.stage ⟨i⟩).hasReached .validated = false) ∧ (tree.children ⟨i⟩).Nodup ∧
      ∀ c ∈ tree.children ⟨i⟩, tree.parent? c = some ⟨i⟩ ∧ c.index < i) : tree.Untouched r r := by
  have each : ∀ id, (tree.stage id ≠ .failed ∧ (tree.stage id).hasReached .validated = false) ∧
      (tree.children id).Nodup ∧
      ∀ c ∈ tree.children id, tree.parent? c = some id ∧ c.index < id.index := by
    intro id
    by_cases hp : tree.Has id
    · exact table id.index (tree.has_iff_lt.mp hp)
    · have none : tree.node? id = none := by simpa [Has] using hp
      have childless : tree.children id = [] := by simp [children, form?, none]
      have initial : tree.stage id = .initial := by rw [stage, tree.facts_of_not_has hp]
      rw [childless, initial]
      exact ⟨by decide, List.nodup_nil, by simp⟩
  exact ⟨⟨small, top, fun id c _ mem => ((each id).2.2 c mem).1,
    fun id c _ mem => ((each id).2.2 c mem).2⟩, .root, fun x _ => (each x).2.1,
    fun x _ => (each x).1⟩

theorem Tree.Untouched.child {s : Tree} {r id c : NodeId} (hu : s.Untouched r id)
    (mem : c ∈ s.children id) : s.Untouched r c where
  linked := hu.linked
  below := hu.below.child mem
  distinct x under := hu.distinct x ((Below.root.child mem).trans under)
  fresh x under := hu.fresh x ((Below.root.child mem).trans under)

namespace Work

/-- What is noted at the node that stands for an expression is borne out. -/
def Judges (w : Work) (s : Tree) (ks : ConstId → Term) (n : Nat) (id : NodeId)
    (wanted : Option Term) (node : NodeId) : Prop :=
  ∃ ty, (w.tree.facts node).type = some ty ∧
    Judged w.pool (s.Closed id) wanted (fun locals => s.evaluate ks locals n id)
      ty (w.tree.facts node).constant

/-- The types noted at and under a node are those noted in the end. -/
structure Recalls (final : Work) (s : Tree) (id : NodeId) (w : Work) : Prop where
  pool : final.pool.Extends w.pool
  types : ∀ x, s.Below id x → (final.tree.facts x).type = (w.tree.facts x).type

/-- The types that tuples under a node are declared to have are tuple types. -/
def TypesTuples (w : Work) (s : Tree) (id : NodeId) : Prop :=
  ∀ x ty es declared, s.Below id x → s.expr? x = some (.tuple (some ty) es) →
    (w.tree.facts ty).type = some declared →
    ∃ fields, w.pool.get declared = .ok (some (.type (.tuple fields)))

end Work

/-- The constants named under a node are values of the types they are declared to have. -/
def Tree.NamesValues (tree : Tree) (ks : ConstId → Term) (p : Pool) (id : NodeId) : Prop :=
  ∀ x ty v, tree.Below id x → (tree.facts x).binding = some (.constant ty v) →
    ∃ is, p.Means v (ks v) ∧ (ks v).Is is ∧ p.Means ty is

/-- What stands under a node is used as it is declared. -/
structure Work.Declares (final : Work) (s : Tree) (ks : ConstId → Term) (fst : Pool)
    (id : NodeId) : Prop where
  tuples : final.TypesTuples s id
  named : s.NamesValues ks fst id

theorem Work.Declares.part {final : Work} {s : Tree} {ks : ConstId → Term} {fst : Pool}
    {id c : NodeId} (dcl : final.Declares s ks fst id)
    (mem : c ∈ s.children id) : final.Declares s ks fst c where
  tuples x ty es declared under :=
    dcl.tuples x ty es declared ((Tree.Below.root.child mem).trans under)
  named x ty v under :=
    dcl.named x ty v ((Tree.Below.root.child mem).trans under)

theorem Resolution.means_of_resolveType {w t₁ : Work} {id : NodeId} {ty : ConstId}
    (ran : resolveType id w = .ok (some ty) t₁) : (∃ term, t₁.pool.Means ty term) ∧
      (t₁.tree.Has id → (t₁.tree.facts id).type = some ty) := by
  have done := rest_ok ran rfl
  generalize w.tree.type? id = expr at done
  split at done
  · obtain ⟨u, last, -, done⟩ := bind_ok.mp done
    simp at done
  · obtain ⟨current, s, -, done⟩ := bind_ok.mp done
    cases current with
    | none => simp at done
    | some current =>
      obtain ⟨res, eq, asked, done⟩ := bind_ok.mp done
      obtain ⟨read, rfl⟩ := readPool_ok.mp asked
      cases res with
      | false => simp at done
      | true =>
        obtain ⟨hf, t, interned, done⟩ := bind_ok.mp done
        obtain ⟨u, hn, ⟨⟩⟩ := bind_pure_ok.mp done
        obtain ⟨p, canonical, rfl⟩ := onPool_ok.mp interned
        obtain ⟨term, means⟩ := Pool.means_of_isResolved read
        obtain ⟨-, spells⟩ := (Pool.gives_canonical means).of_ok canonical
        rw [← modifyFacts_ok.mp hn]
        refine ⟨⟨term, spells.means⟩, fun has => ?_⟩
        exact congrArg Facts.type (Tree.facts_modify_same _ ((Tree.has_modify ..).mp has) _)

namespace Validation

variable {s : Tree} {r id : NodeId} {w t₁ : Work}

/-- An expression or type that is validated for the first time. -/
theorem once_untouched (hu : s.Untouched r id) (ripe : w.Ripe s id)
    {validate : WorkM (Option NodeId)} {ans : Option NodeId}
    (ran : once id validate w = .ok ans t₁) :
    ∃ mid, validate (w.withTree (w.tree.setStage id .validating)) = .ok ans mid ∧
      t₁.pool = mid.pool ∧ ∀ x, (t₁.tree.facts x).type = (mid.tree.facts x).type ∧
        (t₁.tree.facts x).constant = (mid.tree.facts x).constant := by
  have hs : ∀ (w : Work) (id x : NodeId) (stage : Stage),
      ((w.tree.setStage id stage).facts x).type = (w.tree.facts x).type ∧
      ((w.tree.setStage id stage).facts x).constant = (w.tree.facts x).constant :=
    fun w id x stage => ⟨w.tree.facts_modify_of Facts.type (fun _ => by rfl) id x,
      w.tree.facts_modify_of Facts.constant (fun _ => by rfl) id x⟩
  obtain ⟨he, begun, started, ran⟩ := bind_ok.mp ran
  replace started := rest_ok started rfl
  have fresh := hu.fresh id .root
  have stage : w.tree.stage id = s.stage id := by simp only [Tree.stage, ripe.facts .root]
  rw [stage, if_neg fresh.1, fresh.2] at started
  obtain ⟨u, marks, rfl⟩ := bind_pure_ok.mp started
  rw [← setStage_ok.mp marks] at ran
  obtain ⟨res, mid, hv, concluded⟩ := bind_ok.mp ran
  cases res with
  | none =>
    obtain ⟨u, marks, rfl⟩ := bind_pure_ok.mp concluded
    rw [← setStage_ok.mp marks]
    exact ⟨mid, hv, rfl, fun x => hs mid id x _⟩
  | some node =>
    obtain ⟨u, last, marks, concluded⟩ := bind_ok.mp concluded
    cases marks
    split at concluded
    · obtain ⟨u, marks, rfl⟩ := bind_pure_ok.mp concluded
      rw [← setStage_ok.mp marks]
      refine ⟨mid, hv, rfl, fun x => ?_⟩
      have snd := hs (mid.withTree (mid.tree.setStage node .validated)) id x .validated
      have fst := hs mid node x .validated
      exact ⟨snd.1.trans fst.1, snd.2.trans fst.2⟩
    · cases concluded
      exact ⟨mid, hv, rfl, fun x => hs mid node x _⟩

theorem means_validateTypeWithin (hu : s.Untouched r id) (ripe : w.Ripe s id)
    {n : Nat} {ty : ConstId} (ran : validateTypeWithin n id w = .ok (some ty) t₁) :
    (t₁.tree.facts id).type = some ty ∧ ∃ term, t₁.pool.Means ty term := by
  cases n with
  | zero => simp [validateTypeWithin] at ran
  | succ n =>
    obtain ⟨res, last, hv, ran⟩ := bind_ok.mp ran
    obtain ⟨mid, hv, p, facts⟩ := once_untouched hu ripe hv
    replace hv := rest_ok hv rfl
    obtain ⟨ok, hc, -, hv⟩ := bind_ok.mp hv
    cases res with
    | none => simp at ran
    | some node =>
      obtain ⟨here, rfl⟩ := pure_ok.mp ran
      split at hv
      · obtain ⟨hf, rs, resolving, hv⟩ := bind_ok.mp hv
        obtain ⟨eq, rfl⟩ := pure_ok.mp hv
        obtain ⟨x, rfl, rfl⟩ := Option.map_eq_some_iff.mp eq
        obtain ⟨⟨term, means⟩, hn⟩ := Resolution.means_of_resolveType resolving
        have there := (facts id).1.symm.trans here
        have has : rs.tree.Has id := by
          by_contra absent
          simp [Tree.facts_of_not_has _ absent] at there
        obtain rfl : x = ty := Option.some.inj ((hn has).symm.trans there)
        exact ⟨here, term, p ▸ means⟩
      · simp at hv

theorem means_namedType {name : String} {ty : ConstId}
    (ran : onPool (PoolM.namedType name) w = .ok ty t₁) :
    ∃ p, t₁ = w.withPool p ∧ p.Extends w.pool ∧ p.Means ty (.namedType name) := by
  obtain ⟨p, interned, rfl⟩ := onPool_ok.mp ran
  obtain ⟨hg, spells⟩ := (Pool.gives_namedType name).of_ok interned
  exact ⟨p, rfl, hg, spells.means⟩

theorem settleExpr_ok {req k : Option ConstId} {ty : ConstId} {node : NodeId}
    (has : w.tree.Has id)
    (ran : settleExpr id req ty k w = .ok (some node) t₁) : node = id ∧ t₁.pool.Extends w.pool ∧
    (∀ x, x ≠ id → t₁.tree.node? x = w.tree.node? x) ∧
    (t₁.tree.facts id).type = some ty ∧ (t₁.tree.facts id).constant = k ∧
    ∀ (wanted : Option Term) closed evaluate,
      (∀ want, wanted = some want → ∃ asked, req = some asked ∧ w.pool.Means asked want) →
      Judged w.pool closed none evaluate ty k → Judged t₁.pool closed wanted evaluate ty k := by
  obtain ⟨u, hn, notes, ran⟩ := bind_ok.mp ran
  cases notes
  have facts := w.tree.facts_modify_same has fun facts => { facts with type := some ty, constant := k }
  have fr : ∀ (tree : Tree) (f : Facts → Facts) x, x ≠ id →
      (tree.modifyFacts id f).node? x = tree.node? x := fun tree f x apart => by
    simp [Tree.modifyFacts, Tree.node?_modify, apart]
  cases req with
  | none =>
    cases ran
    refine ⟨rfl, .refl _, fr _ _, congrArg Facts.type facts, congrArg Facts.constant facts, ?_⟩
    intro wanted closed evaluate wants judged
    cases wanted with
    | none => exact judged
    | some want =>
      obtain ⟨asked, none, -⟩ := wants want rfl
      simp at none
  | some asked =>
    obtain ⟨fit, fitted, fits, ran⟩ := bind_ok.mp ran
    obtain ⟨p, decided, rfl⟩ := onPool_ok.mp fits
    have hg := grows_fit ty asked w.pool w.pool (.refl _)
    rw [show Validation.fit ty asked w.pool = .ok fit p from decided] at hg
    obtain ⟨u, refitted, refits, ran⟩ := bind_ok.mp ran
    cases refits
    split at ran
    · rename_i isFit
      cases ran
      refine ⟨rfl, hg, fun x apart => (fr _ _ x apart).trans (fr _ _ x apart),
        (Tree.facts_modify_of _ Facts.type (fun _ => by rfl) id id).trans (congrArg Facts.type facts),
        (Tree.facts_modify_of _ Facts.constant (fun _ => by rfl) id id).trans
          (congrArg Facts.constant facts), ?_⟩
      intro wanted closed evaluate wants judged
      refine ⟨fun v hf => ?_, judged.unknown⟩
      obtain ⟨v, is, given, means, hasType, meansType, fits, -, eq⟩ := judged.known v hf
      refine ⟨v, is, given, means.extends hg, hasType, meansType.extends hg, fits, fun want asks => ?_, eq⟩
      obtain ⟨_, ⟨⟩, meansWant⟩ := wants want asks
      exact fits.trans (((gives_fit meansType meansWant).of_ok decided).2.1 isFit)
    · obtain ⟨fst, eq, -, ran⟩ := bind_ok.mp ran
      obtain ⟨snd, eq, -, ran⟩ := bind_ok.mp ran
      obtain ⟨u, last, -, ran⟩ := bind_ok.mp ran
      simp at ran

end Validation

end TreeCompiler
