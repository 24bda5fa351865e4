import TreeCompiler.Proofs.ValidatedTrees

/-!
# Known values

A value that validation notes at an expression is a constant of the pool, or the one that the
expression names.
-/

namespace TreeCompiler

open Step Validation

namespace Pool

/-- An id that a constant stands at. -/
def IsValue (p : Pool) (id : ConstId) : Prop := ∃ k, p.entry? id = some (.value k)

theorem IsValue.extends {b t : Pool} {id : ConstId} (isValue : b.IsValue id)
    (hg : t.Extends b) : t.IsValue id := by
  obtain ⟨k, hf⟩ := isValue
  exact ⟨k, hg.holds id _ hf⟩

end Pool

namespace Validation

variable {b t : Pool} {v : ConstId}

theorem isValue_intern {k : Constant}
    (done : (some <$> PoolM.intern k) b = .ok (some v) t) : t.IsValue v := by
  obtain ⟨id, interned, eq⟩ := map_ok.mp done
  cases eq
  have he := modifyGet_ok.mp interned
  refine ⟨k, ?_⟩
  have hf := Pool.Extends.entry?_intern b k
  rwa [he] at hf

theorem isValue_foldUnary {op : UnaryOp} {arg : ConstId}
    (done : foldUnary op arg b = .ok (some v) t) : t.IsValue v := by
  cases op with
  | not =>
    obtain ⟨hk, mid, -, done⟩ := bind_ok.mp done
    cases hk with
    | some hk => exact isValue_intern done
    | none => simp at done
  | neg =>
    obtain ⟨hk, mid, -, done⟩ := bind_ok.mp done
    cases negated : hk.bind Arithmetic.neg? with
    | some number =>
      simp only [negated] at done
      exact isValue_intern done
    | none => simp [negated] at done

theorem isValue_foldBinary {op : BinaryOp} {left right : ConstId}
    (done : foldBinary op left right b = .ok (some v) t) : t.IsValue v := by
  obtain ⟨leftValue, fst, -, done⟩ := bind_ok.mp done
  obtain ⟨rightValue, snd, -, done⟩ := bind_ok.mp done
  cases leftValue with
  | none => simp at done
  | some leftValue =>
    cases rightValue with
    | none => simp at done
    | some rightValue =>
      cases tests : equalityTest? op with
      | some ans =>
        simp only [tests] at done
        obtain ⟨leftTwin, third, -, done⟩ := bind_ok.mp done
        obtain ⟨rightTwin, fourth, -, done⟩ := bind_ok.mp done
        exact isValue_intern done
      | none =>
        cases folds : foldConstants op leftValue rightValue with
        | some k =>
          simp only [tests, folds] at done
          exact isValue_intern done
        | none => simp [tests, folds] at done

end Validation

namespace Work

variable {s : Tree} {w t : Work}

/-- Every value that is noted is a constant of the pool or the one that the node names. -/
def Founded (s : Tree) (w : Work) : Prop :=
  ∀ id v, (w.tree.facts id).constant = some v → w.pool.IsValue v ∨
    ∃ name ty, s.expr? id = some (.name name) ∧ (w.tree.facts id).binding = some (.constant ty v)

namespace Founded

theorem congr (founded : w.Founded s) (hg : t.pool.Extends w.pool)
    (k : ∀ id, (t.tree.facts id).constant = (w.tree.facts id).constant)
    (binding : ∀ id, (t.tree.facts id).binding = (w.tree.facts id).binding) : t.Founded s := by
  intro id v hk
  rw [k] at hk
  rw [binding]
  exact (founded id v hk).imp_left fun isValue => isValue.extends hg

theorem noted (founded : w.Founded s) (id : NodeId) {f : Facts → Facts}
    (k : ∀ facts : Facts, (f facts).constant = facts.constant)
    (binding : ∀ facts : Facts, (f facts).binding = facts.binding) :
    (w.withTree (w.tree.modifyFacts id f)).Founded s :=
  founded.congr (.refl _) (w.tree.facts_modify_of Facts.constant k id)
    (w.tree.facts_modify_of Facts.binding binding id)

theorem of_folded {gd : Guide} {id : NodeId} {expr : Expr} {v : ConstId}
    (folded : Folded gd.stands w id expr v) : w.pool.IsValue v ∨
      ∃ name ty, expr = .name name ∧ (w.tree.facts id).binding = some (.constant ty v) := by
  cases folded with
  | literal interned => exact .inl ⟨_, interned⟩
  | name bound => exact .inr ⟨_, _, rfl, bound⟩
  | unary _ _ folded hg => exact .inl ((isValue_foldUnary folded).extends hg)
  | logical _ _ _ _ _ _ interned => exact .inl ⟨_, interned⟩
  | binary _ _ _ _ _ folded hg => exact .inl ((isValue_foldBinary folded).extends hg)
  | tuple _ _ interned => exact .inl ⟨_, interned⟩

end Founded

end Work

theorem validationInvariant_founded {s : Tree} {r : NodeId} (lk : s.IsLinked r) :
    ValidationInvariant (.under s r) fun w => w.Kept s r ∧ w.Founded s :=
  have inv := validationInvariant_kept lk
  { child := fun held => inv.child held.1
    followed := fun held => inv.followed held.1
    visited := inv.visited
    held := fun held => inv.held held.1
    passed := inv.passed
    passes_form := fun held => inv.passes_form held.1
    passes_stage := fun held => inv.passes_stage held.1
    passes_stands := inv.passes_stands
    visits_stands := inv.visits_stands
    stands_self := inv.stands_self
    stands_paren := inv.stands_paren
    stage := fun w id stage held visits allowed =>
      ⟨inv.stage w id stage held.1 visits allowed, held.2.noted id (fun _ => rfl) fun _ => rfl⟩
    type := fun w id ty held visits =>
      ⟨inv.type w id ty held.1 visits, held.2.noted id (fun _ => rfl) fun _ => rfl⟩
    value := by
      rintro w id expr ty k ⟨kept, founded⟩ visits h folded
      refine ⟨inv.value w id expr ty k kept visits h folded, fun x v hk => ?_⟩
      have binding : ∀ x, ((w.tree.modifyFacts id fun facts =>
          { facts with type := some ty, constant := k }).facts x).binding =
            (w.tree.facts x).binding := fun x =>
        w.tree.facts_modify_of Facts.binding (by intro _; rfl) id x
      rw [Work.withTree, binding]
      rcases w.tree.facts_modify_cases id x _ with eq | ⟨rfl, eq⟩
      · exact founded x v (by rw [← eq]; exact hk)
      · have isKnown : k = some v := (congrArg Facts.constant eq).symm.trans hk
        rcases Work.Founded.of_folded (folded v isKnown) with isValue | ⟨name, ty, rfl, bound⟩
        · exact .inl isValue
        · obtain ⟨orig, ren, hf, he, -⟩ := h
          refine .inr ⟨name, ty, ?_, bound⟩
          cases orig with
          | name x =>
            rw [hf]
            simpa [Expr.renamed] using he.symm
          | _ => simp [Expr.renamed] at he
    fit := fun w id fit held visits =>
      ⟨inv.fit w id fit held.1 visits, held.2.noted id (fun _ => rfl) fun _ => rfl⟩
    report := fun w diag held =>
      ⟨inv.report w diag held.1, held.2.congr (.refl _) (fun _ => rfl) fun _ => rfl⟩
    pool := fun w p held hg =>
      ⟨inv.pool w p held.1 hg, held.2.congr hg (fun _ => rfl) fun _ => rfl⟩
    jump := fun w id kind l tgt held hfo form unbound hf =>
      ⟨inv.jump w id kind l tgt held.1 hfo form unbound hf, held.2.congr (.refl _)
          (w.facts_jumped_of Facts.constant (fun _ => rfl) id _)
          (w.facts_jumped_of Facts.binding (fun _ => rfl) id _)⟩
    replace := fun w id i new up held visits h hs linkedTo =>
      ⟨inv.replace w id i new up held.1 visits h hs linkedTo, held.2.congr (.refl _)
          (fun x => congrArg Facts.constant (w.tree.facts_replaceChild up id new x))
          (fun x => congrArg Facts.binding (w.tree.facts_replaceChild up id new x))⟩ }

theorem resolutionInvariant_valueless :
    ResolutionInvariant fun w => ∀ id, (w.tree.facts id).constant = none := by
  refine .of_facts ⟨fun _ _ blank => blank, fun _ _ _ blank => blank⟩ ?_ fun _ _ blank => blank
  intro w id f blank resolves x
  rw [← blank x]
  refine w.tree.facts_modify_of Facts.constant (fun facts => ?_) id x
  have eq := congrArg Facts.constant (resolves facts).1
  exact eq

/-- The values of a unit that was built, resolved and validated. -/
theorem Course.founded_of_validate {c res validated : Course} {cap : Option Nat}
    {out : Outcome} {r : NodeId} (fresh : c.work.tree.IsFresh c.root)
    (ranResolve : resolve cap c = .ok out res)
    (ranValidate : validate res = .ok (some r) validated) : validated.work.Founded c.work.tree := by
  obtain ⟨kept, ran⟩ := kept_of_resolve fresh ranResolve ranValidate
  obtain ⟨blank, -⟩ := (resolutionInvariant_valueless.always_resolve cap).keeps c out res
    ⟨fun id => by rw [fresh.blank], rfl⟩ ranResolve
  have founded : res.work.Founded c.work.tree := by
    intro id v hk
    simp [blank] at hk
  exact ((validationInvariant_founded fresh.toIsLinked).keeps_validate ⟨.root, fun _ => .root⟩ _ _ _
    ⟨kept, founded⟩ ran).2

end TreeCompiler
