import TreeCompiler.Proofs.JudgedExpressions
import TreeCompiler.Proofs.QuietExpressions

/-!
# Expressions are judged by their evaluation

Validation judges every expression rightly if it does so with its parts: the parts are validated one
after another, and each finds the tree under it untouched.
-/

namespace TreeCompiler

open Step PoolM WorkM Evaluation Validation

variable {lhs rhs : NodeId} {op : BinaryOp} {fields : Option (List ConstId)}

variable {wants : List (Option Term)} {nodes : List NodeId} {arg : NodeId} {boolean : ConstId}
  {declared : Option ConstId} {typeNode : Option NodeId}

/-- Validation down to a depth judges expressions rightly. Named constants mean something in the
first pool, and the types of tuples are those noted in the end. -/
def Validation.Judges (s₀ : Tree) (r : NodeId) (ks : ConstId → Term) (fst : Pool)
    (final : Work) (n : Nat) : Prop :=
  ∀ ⦃id : NodeId⦄ ⦃req : Option ConstId⦄ ⦃wanted : Option Term⦄ ⦃w : Work⦄ ⦃node : NodeId⦄
    ⦃t₁ : Work⦄, s₀.Untouched r id → w.Ripe s₀ id → w.pool.Extends fst →
    (∀ want, wanted = some want → ∃ asked, req = some asked ∧ w.pool.Means asked want) →
    validateExprWithin n id req w = .ok (some node) t₁ →
    final.Recalls s₀ id t₁ → final.Declares s₀ ks fst id →
    t₁.Judges s₀ ks n id wanted node

namespace Work

variable {w t₁ final : Work} {s₀ : Tree} {ks : ConstId → Term} {n : Nat}
 {id node : NodeId} {wanted : Option Term}

theorem Judges.later (judges : w.Judges s₀ ks n id wanted node)
    (eq : t₁.tree.node? node = w.tree.node? node) (hg : t₁.pool.Extends w.pool) :
    t₁.Judges s₀ ks n id wanted node := by
  obtain ⟨ty, hn, judged⟩ := judges
  have facts : t₁.tree.facts node = w.tree.facts node := by simp only [Tree.facts, eq]
  exact ⟨ty, facts ▸ hn, facts ▸ judged.grown hg⟩

theorem Recalls.earlier (recalls : final.Recalls s₀ id t₁) (hg : t₁.pool.Extends w.pool)
    (eq : ∀ x, s₀.Below id x → t₁.tree.node? x = w.tree.node? x) : final.Recalls s₀ id w where
  pool := recalls.pool.trans hg
  types x under := by
    rw [recalls.types x under, Tree.facts, eq x under, Tree.facts]

end Work

theorem Tree.Closed.child {tree : Tree} {id c : NodeId} (closed : tree.Closed id)
    (mem : c ∈ tree.children id) : tree.Closed c :=
  fun x decl under => closed x decl ((Below.root.child mem).trans under)

namespace Validation

variable {s₀ : Tree} {r id : NodeId} {ks : ConstId → Term} {fst : Pool} {final : Work}
  {n : Nat} {w t₁ : Work} {ty : ConstId} {k : Option ConstId}

theorem allThere_eq_some {α : Type} {results : List (Option α)} {vals : List α}
    (there : allThere results = some vals) : results = vals.map some := by
  induction results generalizing vals with
  | nil =>
    cases there
    rfl
  | cons res rest ih =>
    cases res with
    | none => simp [allThere] at there
    | some v =>
      obtain ⟨oth, hf, rfl⟩ := Option.map_eq_some_iff.mp there
      rw [ih hf, List.map_cons]

theorem validateElements_cons (validate : ExprValidator) (elem : NodeId) (rest : List NodeId)
    (req : List (Option ConstId)) :
    validateElements validate (elem :: rest) req = (do
      let res ← validate elem req.head?.join
      pure (res :: (← validateElements validate rest req.tail))) := by
  cases req <;> rfl

section Elements

variable (hu : s₀.Untouched r id) {es : List NodeId}
  (hi : ∀ elem ∈ es, elem ∈ s₀.children id) (hdi : es.Nodup)
  (ripe : ∀ elem ∈ es, w.Ripe s₀ elem) {req : List (Option ConstId)}

include hu hi hdi ripe

/-- What lies under no part of an expression is left alone. -/
theorem frame_validateElements {results : List (Option NodeId)}
    (ran : validateElements (validateExprWithin n) es req w = .ok results t₁) :
    t₁.pool.Extends w.pool ∧ ∀ x, (∀ elem ∈ es, ¬s₀.Below elem x) → x ≠ id →
      t₁.tree.node? x = w.tree.node? x := by
  induction es generalizing results req w with
  | nil =>
    cases ran
    exact ⟨.refl _, fun _ _ _ => rfl⟩
  | cons elem rest ih =>
    rw [validateElements_cons] at ran
    obtain ⟨res, mid, ranFirst, ran⟩ := bind_ok.mp ran
    obtain ⟨oth, ranRest, -⟩ := bind_pure_ok.mp ran
    have mem := hi elem List.mem_cons_self
    have insideRest := fun x win => hi x (List.mem_cons_of_mem elem win)
    obtain ⟨notIn, distinctRest⟩ := List.nodup_cons.mp hdi
    obtain ⟨spares, -⟩ := spares_validateExprWithin hu.linked (hu.below.child mem)
      (ripe elem List.mem_cons_self) ranFirst
    obtain ⟨grownRest, fr⟩ := ih insideRest distinctRest
      (fun x win => (ripe x (List.mem_cons_of_mem _ win)).next hu.linked
        hu.below mem (insideRest x win) (ne_of_mem_of_not_mem win notIn) spares) ranRest
    refine ⟨grownRest.trans spares.pool, fun x outside notHere => ?_⟩
    refine (fr x (fun sibling win => outside sibling (List.mem_cons_of_mem _ win))
      notHere).trans (spares.outside x (outside elem List.mem_cons_self) ?_)
    rw [hu.linked.linked id elem hu.below mem]
    rintro ⟨⟩
    exact notHere rfl

theorem judges_validateElements (judges : Judges s₀ r ks fst final n)
    (dcl : final.Declares s₀ ks fst id) (hg : w.pool.Extends fst)
    (sized : wants.length = es.length) (asks : ∀ (i : Nat) want, wants[i]? = some (some want) →
      ∃ asked, req[i]? = some (some asked) ∧ w.pool.Means asked want)
    (ran : validateElements (validateExprWithin n) es req w = .ok (nodes.map some) t₁)
    (recalls : ∀ elem ∈ es, final.Recalls s₀ elem t₁) :
    List.Forall₂ (fun entry node => t₁.Judges s₀ ks n entry.1 entry.2 node)
      (es.zip wants) nodes := by
  induction es generalizing nodes req wants w with
  | nil =>
    obtain ⟨eq, rfl⟩ := pure_ok.mp ran
    rw [List.map_eq_nil_iff.mp eq.symm]
    exact .nil
  | cons elem rest ih =>
    obtain ⟨want, oth, rfl⟩ := List.exists_cons_of_length_eq_add_one sized
    rw [validateElements_cons] at ran
    obtain ⟨res, mid, ranFirst, ran⟩ := bind_ok.mp ran
    obtain ⟨results, ranRest, eq⟩ := bind_pure_ok.mp ran
    obtain ⟨node, oth, rfl, rfl, rfl⟩ := List.map_eq_cons_iff.mp eq.symm
    have mem := hi elem List.mem_cons_self
    have insideRest := fun x win => hi x (List.mem_cons_of_mem elem win)
    obtain ⟨notIn, distinctRest⟩ := List.nodup_cons.mp hdi
    have lk := hu.linked
    obtain ⟨spares, stood⟩ := spares_validateExprWithin lk (hu.below.child mem)
      (ripe elem List.mem_cons_self) ranFirst
    have ripeRest : ∀ x ∈ rest, mid.Ripe s₀ x := fun x win =>
      (ripe x (List.mem_cons_of_mem _ win)).next lk hu.below mem
        (insideRest x win) (ne_of_mem_of_not_mem win notIn) spares
    obtain ⟨grownRest, fr⟩ := frame_validateElements hu insideRest distinctRest ripeRest ranRest
    -- what was done at the first part stands while the others are validated
    have stays : ∀ x, s₀.Below elem x → t₁.tree.node? x = mid.tree.node? x := by
      intro x under
      refine fr x (fun sibling win => ?_) ?_
      · exact lk.disjoint_siblings hu.below mem (insideRest sibling win)
          (ne_of_mem_of_not_mem win notIn) under
      · rintro rfl
        exact lk.not_below_child hu.below mem under
    have judged := judges (hu.child mem) (ripe elem List.mem_cons_self) hg
      (fun want asked => by
        obtain ⟨ty, hf, means⟩ := asks 0 want (congrArg some asked)
        exact ⟨ty, by rw [List.head?_eq_getElem?, hf]; rfl, means⟩)
      ranFirst ((recalls elem List.mem_cons_self).earlier grownRest stays) (dcl.part mem)
    refine .cons (judged.later (stays node (stood node rfl)) grownRest) ?_
    refine ih insideRest distinctRest ripeRest (spares.pool.trans hg) (Nat.succ.inj sized)
      (fun i want wanted => ?_) ranRest fun x win => recalls x (List.mem_cons_of_mem _ win)
    obtain ⟨asked, hf, means⟩ := asks (i + 1) want wanted
    exact ⟨asked, by rwa [List.getElem?_tail], means.extends spares.pool⟩

end Elements

/-! ### One lemma for each kind of expression -/

/-- What is found for an expression is borne out, before it is noted. -/
abbrev Confirms (s₀ : Tree) (ks : ConstId → Term) (n : Nat) (id : NodeId) (p : Pool)
    (ty : ConstId) (k : Option ConstId) : Prop :=
  Judged p (s₀.Closed id) none (fun locals => s₀.evaluate ks locals (n + 1) id) ty k

theorem confirms_validateLiteral {literal : Literal} (hf : s₀.expr? id = some (.literal literal))
    (ran : validateLiteral literal w = .ok (some (ty, k)) t₁) :
    Confirms s₀ ks n id t₁.pool ty k := by
  obtain ⟨v, s, made, ran⟩ := bind_ok.mp ran
  obtain ⟨given, hl, ⟨⟩⟩ := bind_pure_ok.mp ran
  obtain ⟨p, interned, rfl⟩ : ∃ p, PoolM.intern literal.constant w.pool = .ok v p ∧
      s = w.withPool p := by
    obtain ⟨p, interned, rfl⟩ := onPool_ok.mp made
    exact ⟨p, by cases literal <;> exact interned, rfl⟩
  obtain ⟨later, typed, rfl⟩ := onPool_ok.mp hl
  have leaf : literal.constant.children = [] ∧ literal.constant.shell = literal.constant := by
    cases literal <;> exact ⟨rfl, rfl⟩
  have ps : List.Forall₂ w.pool.Means literal.constant.children [] := by
    rw [leaf.1]
    exact .nil
  obtain ⟨-, means⟩ := (Pool.gives_means literal.constant ps).of_ok interned
  rw [leaf.2] at means
  obtain ⟨is, hasType⟩ : ∃ is, Term.Is (.node literal.constant []) is := by
    cases literal with
    | int v => exact ⟨_, .int v⟩
    | string v => exact ⟨_, .string v⟩
    | char v => exact ⟨_, .char v⟩
    | bool v => exact ⟨_, .bool v⟩
    | null => exact ⟨_, .null⟩
  obtain ⟨hg, meansType⟩ := (Pool.gives_typeOf means hasType).of_ok typed
  refine ⟨?_, by simp⟩
  rintro _ ⟨⟩
  refine ⟨_, is, is, means.extends hg, hasType, meansType, .refl _, by simp, fun locals => ?_⟩
  rw [Tree.evaluate, hf]

theorem confirms_validateName {name : String} (hf : s₀.expr? id = some (.name name))
    (bound : (w.tree.facts id).binding = (s₀.facts id).binding)
    (hn : ∀ ty v, (s₀.facts id).binding = some (.constant ty v) →
      ∃ is, w.pool.Means v (ks v) ∧ (ks v).Is is ∧ w.pool.Means ty is)
    (ran : validateName id name w = .ok (some (ty, k)) t₁) :
    Confirms s₀ ks n id t₁.pool ty k := by
  replace ran := rest_ok ran rfl
  cases binding : (s₀.facts id).binding with
  | none => simp [bound, binding] at ran
  | some binding' =>
    rw [bound, binding] at ran
    cases binding' with
    | localDecl decl =>
      obtain ⟨hk, rfl⟩ := pure_ok.mp ran
      obtain ⟨type', -, ⟨⟩⟩ := Option.map_eq_some_iff.mp hk
      exact .of_part fun closed => absurd binding (closed id decl .root)
    | constant type' v =>
      cases ran
      obtain ⟨is, means, hasType, meansType⟩ := hn ty v binding
      refine ⟨?_, by simp⟩
      rintro _ ⟨⟩
      refine ⟨_, is, is, means, hasType, meansType, .refl _, by simp, fun locals => ?_⟩
      rw [Tree.evaluate, hf]
      simp only [binding]
    | type type' =>
      obtain ⟨u, s, -, ran⟩ := bind_ok.mp ran
      simp at ran
    | space space =>
      obtain ⟨u, s, -, ran⟩ := bind_ok.mp ran
      simp at ran

section Parts

variable (judges : Judges s₀ r ks fst final n) (hu : s₀.Untouched r id)
  (dcl : final.Declares s₀ ks fst id) (ripe : ∀ c ∈ s₀.children id, w.Ripe s₀ c)
  (hg : w.pool.Extends fst) (recalls : ∀ c ∈ s₀.children id, final.Recalls s₀ c t₁)

include judges hu dcl ripe hg recalls

/-- Two operands are judged one after the other, against the same type if against any. -/
theorem judges_pair {left right : NodeId} {asked : Option ConstId} {wanted : Option Term}
    {s t : Work} (children : s₀.children id = [lhs, rhs])
    (asks : ∀ want, wanted = some want → ∃ ty, asked = some ty ∧ w.pool.Means ty want)
    (ranLeft : validateExprWithin n lhs asked w = .ok (some left) s)
    (ranRight : validateExprWithin n rhs asked s = .ok (some right) t) (tail : t.Grown t₁) :
    t.pool.Extends w.pool ∧ t.Judges s₀ ks n lhs wanted left ∧
      t.Judges s₀ ks n rhs wanted right := by
  have ran : validateElements (validateExprWithin n) [lhs, rhs] [asked, asked] w =
      .ok ([left, right].map some) t := by
    rw [validateElements_cons]
    refine (bind_of_ok ranLeft).trans ?_
    rw [validateElements_cons]
    exact bind_of_ok ((bind_of_ok ranRight).trans rfl)
  have hdi := hu.distinct id .root
  rw [children] at ripe recalls hdi
  have hi : ∀ c ∈ [lhs, rhs], c ∈ s₀.children id := by simp [children]
  have asksBoth : ∀ (i : Nat) want, [wanted, wanted][i]? = some (some want) →
      ∃ ty, [asked, asked][i]? = some (some ty) ∧ w.pool.Means ty want := by
    intro i want hf
    match i with
    | 0 | 1 =>
      obtain ⟨ty, rfl, means⟩ := asks want (Option.some.inj hf)
      exact ⟨ty, rfl, means⟩
    | i + 2 => simp at hf
  obtain ⟨hfu, -⟩ := frame_validateElements hu hi hdi ripe ran
  have all := judges_validateElements hu hi hdi ripe judges dcl hg rfl asksBoth
    ran fun c mem => (recalls c mem).earlier tail.pool fun _ _ => by rw [tail.tree]
  obtain ⟨judgedLeft, rest⟩ := List.forall₂_cons.mp all
  exact ⟨hfu, judgedLeft, (List.forall₂_cons.mp rest).1⟩

theorem confirms_validateUnary {op : UnaryOp} (hf : s₀.expr? id = some (.unary op arg))
    (ran : validateUnary (validateExprWithin n) op arg w = .ok (some (ty, k)) t₁) :
    Confirms s₀ ks n id t₁.pool ty k := by
  have children : s₀.children id = [arg] := by rw [s₀.children_of_expr hf]; rfl
  have step : ∀ locals, s₀.evaluate ks locals (n + 1) id = (do
      applyUnary op (← s₀.evaluate ks locals n arg)) := fun locals => by
    rw [Tree.evaluate, hf]
  obtain ⟨wanted, s, asked, ran⟩ := bind_ok.mp ran
  obtain ⟨p, rfl, larger, meansType⟩ : ∃ p, s = w.withPool p ∧ p.Extends w.pool ∧
      p.Means wanted (.namedType (className op)) := by
    cases op <;> exact means_namedType asked
  obtain ⟨ans, t, ranPart, ran⟩ := bind_ok.mp ran
  cases ans with
  | none => simp at ran
  | some node =>
    replace ran := rest_ok ran rfl
    have tail : t.Grown t₁ := by
      generalize (t.tree.facts node).constant = hk at ran
      cases hk with
      | none =>
        cases ran
        exact .refl _
      | some v =>
        obtain ⟨folded, ranFold, -⟩ := bind_pure_ok.mp ran
        exact grown_of_onPool (grows_foldUnary op v) ranFold
    have mem : arg ∈ s₀.children id := by simp [children]
    have ripePart : (w.withPool p).Ripe s₀ arg := ripe arg mem
    obtain ⟨spares, -⟩ :=
      spares_validateExprWithin hu.linked (hu.below.child mem) ripePart ranPart
    obtain ⟨childType, hn, judged⟩ := judges (hu.child mem) ripePart (larger.trans hg)
      (fun want (asks : some _ = some want) => ⟨wanted, rfl, Option.some.inj asks ▸ meansType⟩) ranPart
      ((recalls arg mem).earlier tail.pool fun _ _ => by rw [tail.tree]) (dcl.part mem)
    cases hk : (t.tree.facts node).constant with
    | none =>
      simp only [hk] at ran
      cases ran
      refine .of_part fun closed locals => ?_
      obtain ⟨fault, hx⟩ := judged.unknown hk (closed.child (by simp [children])) locals
      exact ⟨fault, by rw [step, hx]; rfl⟩
    | some i =>
      simp only [hk] at ran
      obtain ⟨folded, folding, ⟨⟩⟩ := bind_pure_ok.mp ran
      obtain ⟨last, ranFold, rfl⟩ := onPool_ok.mp folding
      obtain ⟨v, is, given, means, hasType, -, -, fits, evaluates⟩ := judged.known i hk
      obtain ⟨farther, reflects⟩ := (Pool.gives_foldUnary op means).of_ok ranFold
      have hp := (fits _ rfl).eq_of_named (by cases op <;> decide)
      exact .of_reflects reflects (ends_applyUnary (hp ▸ hasType))
        ((meansType.extends spares.pool).extends farther) fun locals => by rw [step, evaluates]; rfl

omit dcl ripe hg recalls judges hu in
theorem constantBool_judged {node : NodeId} {v : Option Bool}
    (judged : w.Judges s₀ ks n arg (some (.namedType "Boolean")) node)
    (ran : constantBool node w = .ok v t₁) :
    w = t₁ ∧ ((v = none ∧
        (s₀.Closed arg → ∀ locals, ∃ fault, s₀.evaluate ks locals n arg = throw fault)) ∨
      ∃ truth, v = some truth ∧
        ∀ locals, s₀.evaluate ks locals n arg = pure (.bool truth)) := by
  obtain ⟨ty, -, judged⟩ := judged
  replace ran := rest_ok ran rfl
  cases hk : (w.tree.facts node).constant with
  | none =>
    simp only [hk] at ran
    cases ran
    exact ⟨rfl, .inl ⟨rfl, judged.unknown hk⟩⟩
  | some k =>
    simp only [hk] at ran
    obtain ⟨read, rfl⟩ := readPool_ok.mp ran
    obtain ⟨term, is, given, means, hasType, -, -, fits, evaluates⟩ := judged.known k hk
    have hp := (fits _ rfl).eq_of_named (by decide)
    obtain ⟨truth, rfl⟩ := (hp ▸ hasType).of_name.2.1 rfl
    refine ⟨rfl, .inr ⟨truth, ?_, evaluates⟩⟩
    obtain ⟨shown, hf, shell, -⟩ := Pool.Means.shown means
    cases shown with
    | bool x =>
      cases shell
      simpa [Pool.bool?, hf, bind, Except.bind, pure, Except.pure] using read.symm
    | _ => cases shell

theorem confirms_validateLogical (hf : s₀.expr? id = some (.binary op lhs rhs))
    (logical : op.isLogical)
    (meansType : w.pool.Means boolean (.namedType "Boolean"))
    (ran : validateLogical (validateExprWithin n) boolean op lhs rhs w = .ok (some (ty, k)) t₁) :
    Confirms s₀ ks n id t₁.pool ty k := by
  have children : s₀.children id = [lhs, rhs] := by rw [s₀.children_of_expr hf]; rfl
  obtain ⟨left, s, ranLeft, ran⟩ := bind_ok.mp ran
  obtain ⟨right, t, ranRight, ran⟩ := bind_ok.mp ran
  match left, right with
  | none, _ | some _, none => simp at ran
  | some left, some right =>
    obtain ⟨leftValue, u, askedLeft, ran⟩ := bind_ok.mp ran
    obtain ⟨rfl, -⟩ := knows_of_constantBool askedLeft rfl (.refl _)
    obtain ⟨rightValue, v, askedRight, ran⟩ := bind_ok.mp ran
    obtain ⟨rfl, -⟩ := knows_of_constantBool askedRight rfl (.refl _)
    obtain ⟨tail, rfl, reflects⟩ : t.Grown t₁ ∧ ty = boolean ∧ ∀ evaluation,
        (∀ ans, foldLogical op leftValue rightValue = some ans → evaluation = pure (.bool ans)) →
        (foldLogical op leftValue rightValue = none → ∃ fault, evaluation = throw fault) →
        Reflects evaluation k t₁.pool := by
      cases folded : foldLogical op leftValue rightValue with
      | none =>
        simp only [folded] at ran
        cases ran
        refine ⟨.refl _, rfl, fun evaluation _ fails => ?_⟩
        obtain ⟨fault, rfl⟩ := fails rfl
        exact ⟨nofun, fun _ _ => rfl⟩
      | some ans =>
        simp only [folded] at ran
        obtain ⟨val, made, ⟨⟩⟩ := bind_pure_ok.mp ran
        refine ⟨grown_of_onPool (PoolM.grows_intern _) made, rfl, fun evaluation eq _ => ?_⟩
        obtain rfl := eq ans rfl
        obtain ⟨p, interned, rfl⟩ := onPool_ok.mp made
        refine ⟨?_, nofun⟩
        rintro _ ⟨⟩
        exact ⟨val, rfl, ((Pool.gives_means (.bool ans) .nil).of_ok interned).2⟩
    obtain ⟨hfu, allLeft, allRight⟩ := judges_pair judges hu dcl ripe hg recalls children
      (fun want asks => ⟨ty, rfl, Option.some.inj asks ▸ meansType⟩) ranLeft ranRight tail
    obtain ⟨-, judgedLeft⟩ := constantBool_judged allLeft askedLeft
    obtain ⟨-, judgedRight⟩ := constantBool_judged allRight askedRight
    have meansAfter := (meansType.extends hfu).extends tail.pool
    have unfolded : foldLogical op leftValue rightValue = none → k = none := fun none =>
      (reflects (throw .overflow) (by simp [none]) fun _ => ⟨_, rfl⟩).2 _ rfl
    have hs : ∀ truth, foldLogical op leftValue rightValue = some truth →
        (∀ locals, s₀.evaluate ks locals (n + 1) id = pure (.bool truth)) →
        Confirms s₀ ks n id t₁.pool ty k := fun truth folds eq =>
      .of_reflects (reflects (pure (.bool truth)) (by simp [folds]) (by simp [folds]))
        (ends_pure (.bool truth)) meansAfter eq
    -- where the left operand does not decide, the right one does
    have passes : foldLogical op leftValue rightValue = rightValue →
        (∀ locals, s₀.evaluate ks locals (n + 1) id = s₀.evaluate ks locals n rhs) →
        Confirms s₀ ks n id t₁.pool ty k := by
      intro folds eq
      rcases judgedRight with ⟨rfl, fails⟩ | ⟨truth, rfl, evaluates⟩
      · rw [unfolded folds]
        refine .of_part fun closed locals => ?_
        rw [eq]
        exact fails (closed.child (by simp [children])) locals
      · exact hs truth folds fun locals => (eq locals).trans (evaluates locals)
    rcases judgedLeft with ⟨rfl, fails⟩ | ⟨truth, rfl, evaluates⟩
    · rw [unfolded (by cases op <;> rfl)]
      refine .of_part fun closed locals => ?_
      obtain ⟨fault, hx⟩ := fails (closed.child (by simp [children])) locals
      exact ⟨fault, by rw [Tree.evaluate, hf]; simp only [hx]; rfl⟩
    · cases op with
      | and =>
        cases truth with
        | false =>
          exact hs false rfl fun locals => by rw [Tree.evaluate, hf]; simp only [evaluates]; rfl
        | true => exact passes rfl fun locals => by rw [Tree.evaluate, hf]; simp only [evaluates]; rfl
      | or =>
        cases truth with
        | false => exact passes rfl fun locals => by rw [Tree.evaluate, hf]; simp only [evaluates]; rfl
        | true =>
          exact hs true rfl fun locals => by rw [Tree.evaluate, hf]; simp only [evaluates]; rfl
      | _ => simp [BinaryOp.isLogical] at logical

omit dcl ripe hg recalls judges hu in
/-- The result of an operator has the type that suits its operands. -/
theorem suits_of_allows {int string left right : ConstId} {leftTerm rightTerm : Term}
    (allows : Allows int boolean string w t₁ op left right ty) (larger : w.Grown t₁)
    (hp : op.isLogical = false) (meansInt : w.pool.Means int (.namedType "Int"))
    (meansBoolean : w.pool.Means boolean (.namedType "Boolean"))
    (meansString : w.pool.Means string (.namedType "String"))
    (meansLeft : w.pool.Means left leftTerm) (meansRight : w.pool.Means right rightTerm) :
    ∃ res, t₁.pool.Means ty res ∧ Suits op leftTerm rightTerm res := by
  cases allows with
  | number mem =>
    rw [meansLeft.unique meansInt, meansRight.unique meansInt]
    refine ⟨_, meansInt.extends larger.pool, .number ?_⟩
    cases op <;> simp_all [BinaryOp.isLogical]
  | order compares made ordered =>
    obtain ⟨p, rfl, -, meansChar⟩ := means_namedType made
    obtain rfl := meansLeft.unique meansRight
    refine ⟨_, meansBoolean.extends larger.pool, ?_⟩
    rcases List.mem_pair.mp ordered with rfl | rfl
    · rw [meansLeft.unique meansInt]
      exact .order compares (.inl rfl)
    · rw [(meansLeft.extends larger.pool).unique meansChar]
      exact .order compares (.inr rfl)
  | equality tests => exact ⟨_, meansBoolean.extends larger.pool, .equality tests _ _⟩
  | join text =>
    refine ⟨_, meansString.extends larger.pool, .join (text.imp ?_ ?_)⟩
    · rintro rfl
      exact meansLeft.unique meansString
    · rintro rfl
      exact meansRight.unique meansString

theorem confirms_validateBinary (hf : s₀.expr? id = some (.binary op lhs rhs))
    (ran : validateBinary (validateExprWithin n) id op lhs rhs w = .ok (some (ty, k)) t₁) :
    Confirms s₀ ks n id t₁.pool ty k := by
  have children : s₀.children id = [lhs, rhs] := by rw [s₀.children_of_expr hf]; rfl
  obtain ⟨int, _, made, ran⟩ := bind_ok.mp ran
  obtain ⟨p, rfl, larger, meansInt⟩ := means_namedType made
  obtain ⟨boolean, _, made, ran⟩ := bind_ok.mp ran
  obtain ⟨q, rfl, larger', meansBoolean⟩ := means_namedType made
  obtain ⟨string, s, made, ran⟩ := bind_ok.mp ran
  obtain ⟨r, rfl, larger'', meansString⟩ := means_namedType made
  replace meansInt := (meansInt.extends larger').extends larger''
  replace meansBoolean := meansBoolean.extends larger''
  replace hg := ((larger''.trans larger').trans larger).trans hg
  generalize he : ((w.withPool p).withPool q).withPool r = i at ran
  have pool : i.pool = r := by rw [← he]; rfl
  replace ripe : ∀ c ∈ s₀.children id, i.Ripe s₀ c := he ▸ ripe
  rw [← pool] at hg meansInt meansBoolean meansString
  split at ran
  · rename_i logical
    exact confirms_validateLogical judges hu dcl ripe hg recalls hf logical meansBoolean ran
  · rename_i hp
    replace hp : op.isLogical = false := by simpa using hp
    have step : ∀ locals, s₀.evaluate ks locals (n + 1) id = (do
        let left ← s₀.evaluate ks locals n lhs
        applyBinary op left (← s₀.evaluate ks locals n rhs)) := fun locals => by
      rw [Tree.evaluate, hf]
      cases op <;> first | rfl | simp [BinaryOp.isLogical] at hp
    obtain ⟨left, s, ranLeft, ran⟩ := bind_ok.mp ran
    obtain ⟨right, t, ranRight, ran⟩ := bind_ok.mp ran
    match left, right with
    | none, _ | some _, none => simp at ran
    | some left, some right =>
      obtain ⟨⟨leftType, rightType⟩, u, typed, ran⟩ := bind_ok.mp ran
      obtain ⟨rfl, notedLeft, notedRight⟩ : t = u ∧ (t.tree.facts left).type = some leftType ∧
          (t.tree.facts right).type = some rightType := by
        replace typed := rest_ok typed rfl
        replace typed := rest_ok typed rfl
        generalize (t.tree.facts left).type = fst, (t.tree.facts right).type = snd at typed
        match fst, snd with
        | none, _ | some _, none => simp at typed
        | some fst, some snd =>
          cases typed
          exact ⟨rfl, rfl, rfl⟩
      obtain ⟨res, v, typing, ran⟩ := bind_ok.mp ran
      cases res with
      | none => simp at ran
      | some res =>
        obtain ⟨val, folding, ⟨⟩⟩ := bind_pure_ok.mp ran
        obtain ⟨typedTail, _, ⟨⟩, allows⟩ :=
          (binaryType_ok typing).resolve_left fun ⟨missing, _⟩ => nomatch missing
        have foldTail := binaryConstant_grown folding
        have tail := typedTail.trans foldTail
        obtain ⟨hfu, ⟨_, notedLeft', judgedLeft⟩, ⟨_, notedRight', judgedRight⟩⟩ :=
          judges_pair judges hu dcl ripe hg recalls children
            (fun want (asks : none = some want) => nomatch asks) ranLeft ranRight tail
        cases notedLeft.symm.trans notedLeft'
        cases notedRight.symm.trans notedRight'
        replace folding := rest_ok folding rfl
        replace folding := rest_ok folding rfl
        rw [typedTail.tree] at folding
        cases knownLeft : (t.tree.facts left).constant with
        | none =>
          simp only [knownLeft] at folding
          cases folding
          refine .of_part fun closed locals => ?_
          obtain ⟨fault, hx⟩ := judgedLeft.unknown knownLeft (closed.child (by simp [children])) locals
          exact ⟨fault, by rw [step, hx]; rfl⟩
        | some leftValue =>
          obtain ⟨leftTerm, leftIs, leftGiven, meansLeft, hasLeft, meansLeftType, fitsLeft, -, evaluatesLeft⟩ :=
            judgedLeft.known leftValue knownLeft
          cases knownRight : (t.tree.facts right).constant with
          | none =>
            simp only [knownLeft, knownRight] at folding
            cases folding
            refine .of_part fun closed locals => ?_
            obtain ⟨fault, hx⟩ :=
              judgedRight.unknown knownRight (closed.child (by simp [children])) locals
            exact ⟨fault, by rw [step, evaluatesLeft, hx]; rfl⟩
          | some rightValue =>
            obtain ⟨rightTerm, rightIs, rightGiven, meansRight, hasRight, meansRightType, fitsRight, -,
              evaluatesRight⟩ := judgedRight.known rightValue knownRight
            simp only [knownLeft, knownRight] at folding
            obtain ⟨last, folded, rfl⟩ := onPool_ok.mp folding
            obtain ⟨res, meansResult, suits⟩ := suits_of_allows allows typedTail hp
              (meansInt.extends hfu) (meansBoolean.extends hfu) (meansString.extends hfu)
              meansLeftType meansRightType
            obtain ⟨larger, reflects⟩ := (Pool.gives_foldBinary op
              (meansLeft.extends typedTail.pool) (meansRight.extends typedTail.pool)).of_ok folded
            exact .of_reflects reflects (ends_applyBinary (suits.of_fits fitsLeft fitsRight) hasLeft hasRight)
              (meansResult.extends larger) fun locals => by rw [step, evaluatesLeft, evaluatesRight]; rfl

omit dcl ripe hg recalls judges hu in
theorem validateTupleElements_ok {validate : ExprValidator} {es : List NodeId}
    (ran : validateTupleElements validate declared fields es w = .ok (some (ty, k)) t₁) :
    ∃ nodes ps t, validateElements validate es (match fields.filter (·.length = es.length) with
          | some fields => fields.map some
          | none => []) w = .ok (nodes.map some) t ∧
      List.Forall₂ (fun node part => (t.tree.facts node).type = some part.1 ∧
        (t.tree.facts node).constant = part.2) nodes ps ∧
      t.Grown t₁ ∧ (∀ given, declared = some given → given = ty) ∧
      (declared = none → ∀ terms, List.Forall₂ t.pool.Means (ps.map Prod.fst) terms →
        t₁.pool.Means ty (.tupleType terms)) ∧
      (allThere (ps.map Prod.snd) = none → k = none) ∧
      ∀ vals, allThere (ps.map Prod.snd) = some vals → ∃ v, k = some v ∧
        ∀ terms, List.Forall₂ t.pool.Means vals terms → t₁.pool.Means v (.tuple terms) := by
  obtain ⟨results, t, ranElements, ran⟩ := bind_ok.mp ran
  cases there : allThere results with
  | none => simp [there] at ran
  | some nodes =>
    simp only [there] at ran
    obtain ⟨ps, eq, hl, ran⟩ := bind_ok.mp ran
    obtain ⟨rfl, hn⟩ := elementFacts_ok hl
    obtain rfl := allThere_eq_some there
    refine ⟨nodes, ps, t, ranElements, hn, ?_⟩
    obtain ⟨got, u, typing, ran⟩ : ∃ got u, (t.Grown u ∧ (∀ given, declared = some given → given = got) ∧
        (declared = none → ∀ terms, List.Forall₂ t.pool.Means (ps.map Prod.fst) terms →
          u.pool.Means got (.tupleType terms))) ∧
        (do match allThere (ps.map Prod.snd) with
          | some vals => pure (some (got, some (← onPool (.tuple vals))))
          | none => pure (some (got, none)) : WorkM (Option Typed)) u = .ok (some (ty, k)) t₁ := by
      cases declared with
      | some declared => exact ⟨declared, t, ⟨.refl _, by simp, by simp⟩, ran⟩
      | none =>
        obtain ⟨got, u, made, ran⟩ := bind_ok.mp ran
        refine ⟨got, u, ⟨grown_of_onPool (PoolM.grows_intern _) made, by simp, fun _ terms all => ?_⟩, ran⟩
        obtain ⟨p, interned, rfl⟩ := onPool_ok.mp made
        rw [← Term.node_tupleType all]
        exact ((Pool.gives_means (.type (.tuple _)) all).of_ok interned).2
    obtain ⟨larger, given, built⟩ := typing
    cases hk : allThere (ps.map Prod.snd) with
    | none =>
      simp only [hk] at ran
      cases ran
      exact ⟨larger, given, built, by simp, by simp⟩
    | some vals =>
      simp only [hk] at ran
      obtain ⟨v, made, ⟨⟩⟩ := bind_pure_ok.mp ran
      have hf := grown_of_onPool (PoolM.grows_intern _) made
      refine ⟨larger.trans hf, given,
        fun none terms all => (built none terms all).extends hf.pool, by simp, ?_⟩
      rintro _ ⟨⟩
      refine ⟨v, rfl, fun terms all => ?_⟩
      obtain ⟨p, interned, rfl⟩ := onPool_ok.mp made
      have all := all.imp fun _ _ means => means.extends larger.pool
      rw [← Term.node_tuple all]
      exact ((Pool.gives_means (.tuple _) all).of_ok interned).2

omit dcl ripe hg recalls judges hu in
theorem judged_elements {entries : List (NodeId × Option Term)}
    {ps : List (ConstId × Option ConstId)}
    (all : List.Forall₂ (fun entry node => w.Judges s₀ ks n entry.1 entry.2 node) entries nodes)
    (hn : List.Forall₂ (fun node part => (w.tree.facts node).type = some part.1 ∧
      (w.tree.facts node).constant = part.2) nodes ps) :
    (allThere (ps.map Prod.snd) = none ∧ ((∀ entry ∈ entries, s₀.Closed entry.1) → ∀ locals,
      ∃ fault, entries.mapM (fun entry => s₀.evaluate ks locals n entry.1) = throw fault)) ∨
    ∃ vals terms types given, allThere (ps.map Prod.snd) = some vals ∧
      List.Forall₂ w.pool.Means vals terms ∧ List.Forall₂ Term.Is terms types ∧
      List.Forall₂ w.pool.Means (ps.map Prod.fst) given ∧ List.Forall₂ Term.Fits types given ∧
      List.Forall₂ (fun ty entry => ∀ want, entry.2 = some want → ty.Fits want) types entries ∧
      ∀ locals, entries.mapM (fun entry => s₀.evaluate ks locals n entry.1) = pure terms := by
  induction all generalizing ps with
  | nil =>
    cases hn
    exact .inr ⟨[], [], [], [], rfl, .nil, .nil, .nil, .nil, .nil, fun _ => rfl⟩
  | cons judges _ ih =>
    obtain ⟨⟨ty, k⟩, ps, ⟨typed, rfl⟩, oth, rfl⟩ := List.forall₂_cons_left_iff.mp hn
    obtain ⟨_, hn, judged⟩ := judges
    cases typed.symm.trans hn
    simp only [List.map_cons, List.mapM_cons]
    generalize (w.tree.facts _).constant = k at judged
    cases k with
    | none =>
      refine .inl ⟨rfl, fun closed locals => ?_⟩
      obtain ⟨fault, hx⟩ := judged.unknown rfl (closed _ List.mem_cons_self) locals
      exact ⟨fault, by rw [hx]; rfl⟩
    | some v =>
      obtain ⟨term, is, given, means, hasType, meansType, fits, fitsWant, evaluates⟩ := judged.known v rfl
      simp only [allThere, evaluates, pure_bind]
      rcases ih oth with ⟨missing, fails⟩ | ⟨vals, terms, types, givens, there, allMean, allHave, allTypes,
        allFit, allWanted, evaluatesAll⟩
      · refine .inl ⟨by simp [missing], fun closed locals => ?_⟩
        obtain ⟨fault, hx⟩ := fails (fun entry mem => closed entry (List.mem_cons_of_mem _ mem)) locals
        exact ⟨fault, by rw [hx]; rfl⟩
      · exact .inr ⟨v :: vals, term :: terms, is :: types, given :: givens, by simp [there],
          .cons means allMean, .cons hasType allHave, .cons meansType allTypes, .cons fits allFit,
          .cons fitsWant allWanted, fun locals => by rw [evaluatesAll]; rfl⟩

omit ripe in
theorem confirms_validateTupleElements {es : List NodeId}
    (sized : wants.length = es.length) (hf : s₀.expr? id = some (.tuple typeNode es))
    (ripe : ∀ elem ∈ es, w.Ripe s₀ elem)
    (asks : ∀ (i : Nat) want, wants[i]? = some (some want) → ∃ names asked, fields = some names ∧
      names.length = es.length ∧ names[i]? = some asked ∧ w.pool.Means asked want)
    (given : ∀ ty, declared = some ty → ∃ terms, wants = terms.map some ∧ w.pool.Means ty
    (.tupleType terms))
    (ran : validateTupleElements (validateExprWithin n) declared fields es w = .ok (some (ty, k)) t₁) :
    Confirms s₀ ks n id t₁.pool ty k := by
  have children : s₀.children id = typeNode.toList ++ es := by
    rw [s₀.children_of_expr hf]
    rfl
  have hi : ∀ elem ∈ es, elem ∈ s₀.children id := fun elem mem => by
    rw [children]
    exact List.mem_append_right _ mem
  have hdi : es.Nodup := by
    have all := hu.distinct id .root
    rw [children] at all
    exact all.of_append_right
  have step : ∀ locals, s₀.evaluate ks locals (n + 1) id = (do
      pure (.tuple (← (es.zip wants).mapM fun entry =>
        s₀.evaluate ks locals n entry.1))) := fun locals => by
    have unzipped : (es.zip wants).map Prod.fst = es := List.map_fst_zip (by omega)
    rw [Tree.evaluate, hf]
    exact congrArg (· >>= fun terms => pure (Term.tuple terms))
      ((congrArg (List.mapM _) unzipped.symm).trans List.mapM_map)
  obtain ⟨nodes, ps, t, ranElements, hn, tail, isGiven, built, unknown, hk⟩ :=
    validateTupleElements_ok ran
  obtain ⟨hfu, -⟩ := frame_validateElements hu hi hdi ripe ranElements
  have all := judges_validateElements hu hi hdi ripe judges dcl hg sized
    (fun i want wanted => by
      obtain ⟨names, asked, rfl, eq, here, means⟩ := asks i want wanted
      exact ⟨asked, by rw [Option.filter_some, if_pos (by simpa using eq)]; simp [here], means⟩)
    ranElements fun c mem =>
      (recalls c (hi c mem)).earlier tail.pool fun _ _ => by rw [tail.tree]
  rcases judged_elements all hn with ⟨missing, fails⟩ | ⟨vals, terms, types, givens, there, allMean,
    allHave, allTypes, allFit, allWanted, evaluates⟩
  · rw [unknown missing]
    refine .of_part fun closed locals => ?_
    obtain ⟨fault, hx⟩ := fails (fun entry mem =>
      closed.child (hi entry.1 (List.of_mem_zip mem).1)) locals
    exact ⟨fault, by rw [step, hx]; rfl⟩
  · obtain ⟨v, rfl, meansValue⟩ := hk vals there
    obtain ⟨term, meansType, fits⟩ : ∃ term, t₁.pool.Means ty term ∧
        Term.Fits (.tupleType types) term := by
      cases declared with
      | none =>
        exact ⟨_, built rfl givens allTypes, .fields allFit.length_eq (Pool.getElem?_of_forall₂ allFit)⟩
      | some declared =>
        obtain rfl := isGiven declared rfl
        obtain ⟨wanted, rfl, meansGiven⟩ := given declared rfl
        have count := allWanted.length_eq
        refine ⟨_, (meansGiven.extends hfu).extends tail.pool, .fields ?_ ?_⟩
        · simp at count sized
          omega
        · intro i is want hasIs hasWant
          obtain ⟨inRange, -⟩ := List.getElem?_eq_some_iff.mp hasWant
          rw [List.length_map] at sized
          exact Pool.getElem?_of_forall₂ allWanted i is (_, some want) hasIs
            (List.getElem?_zip_eq_some.mpr ⟨List.getElem?_eq_getElem (by omega), by simp [hasWant]⟩) want rfl
    refine ⟨?_, by simp⟩
    rintro _ ⟨⟩
    exact ⟨_, _, term, meansValue _ allMean, .tuple allHave.length_eq (Pool.getElem?_of_forall₂ allHave),
      meansType, fits, by simp, fun locals => by rw [step, evaluates]; rfl⟩

omit dcl ripe hg recalls judges hu in
theorem tupleFields_ok {ty : Option ConstId} (ran : tupleFields ty w = .ok fields t₁) :
    w = t₁ ∧ ∀ given names, ty = some given →
      w.pool.get given = .ok (some (.type (.tuple names))) → fields = some names := by
  cases ty with
  | none =>
    cases ran
    exact ⟨rfl, by simp⟩
  | some ty =>
    obtain ⟨k, eq, hl, ran⟩ := bind_ok.mp ran
    obtain ⟨read, rfl⟩ := readPool_ok.mp hl
    refine ⟨?_, ?_⟩
    · split at ran <;> exact (pure_ok.mp ran).2
    · rintro _ names ⟨⟩ hf
      obtain rfl := Except.ok.inj (read.symm.trans hf)
      exact (pure_ok.mp ran).1.symm

theorem confirms_validateTuple {es : List NodeId}
    {req : Option ConstId} (hf : s₀.expr? id = some (.tuple typeNode es))
    (ran : validateTuple (validateExprWithin n) (validateTypeWithin n) id typeNode es req
      w = .ok (some (ty, k)) t₁) : Confirms s₀ ks n id t₁.pool ty k := by
  have children : s₀.children id = typeNode.toList ++ es := by
    rw [s₀.children_of_expr hf]
    rfl
  have hi : ∀ elem ∈ es, elem ∈ s₀.children id := fun elem mem => by
    rw [children]
    exact List.mem_append_right _ mem
  have hdi := hu.distinct id .root
  cases typeNode with
  | none =>
    obtain ⟨fields, s, hl, ran⟩ := bind_ok.mp ran
    obtain ⟨rfl, -⟩ := tupleFields_ok hl
    have unasked : (es.map fun _ => (none : Option Term)).length = es.length := by simp
    exact confirms_validateTupleElements judges hu dcl hg recalls unasked hf
      (fun elem mem => ripe elem (hi elem mem))
      (by simp [List.getElem?_replicate]) (by simp) ran
  | some typeNode =>
    rw [children, Option.toList_some, List.singleton_append, List.nodup_cons] at hdi
    have mem : typeNode ∈ s₀.children id := by simp [children]
    obtain ⟨declared, s, typing, ran⟩ := bind_ok.mp ran
    cases declared with
    | none => simp at ran
    | some declared =>
      obtain ⟨hn, term, means⟩ :=
        means_validateTypeWithin (hu.child mem) (ripe typeNode mem) typing
      have spares := spares_validateTypeWithin hu.linked (hu.below.child mem)
        (ripe typeNode mem) typing
      obtain ⟨fields, t, hl, ran⟩ := bind_ok.mp ran
      obtain ⟨rfl, fieldsOf⟩ := tupleFields_ok hl
      split at ran
      · rename_i sized
        have apart : ∀ elem ∈ es, elem ≠ typeNode := fun elem win =>
          ne_of_mem_of_not_mem win hdi.1
        have ripeElements : ∀ elem ∈ es, s.Ripe s₀ elem := fun elem win =>
          (ripe elem (hi elem win)).next hu.linked hu.below mem
            (hi elem win) (apart elem win) spares
        obtain ⟨nodes, ps, t, ranElements, -, tail, -⟩ := validateTupleElements_ok ran
        obtain ⟨hfu, fr⟩ :=
          frame_validateElements hu hi hdi.2 ripeElements ranElements
        -- the type stays noted while the elements are validated
        have stays : t₁.tree.facts typeNode = s.tree.facts typeNode := by
          rw [tail.tree, Tree.facts, fr typeNode, Tree.facts]
          · exact fun elem win => hu.linked.not_below_sibling hu.below
              (hi elem win) mem (apart elem win).symm
          · rintro rfl
            exact hu.linked.not_below_child hu.below mem .root
        have recalled := recalls typeNode mem
        obtain ⟨names, isTuple⟩ := dcl.tuples id typeNode es declared .root hf
          ((recalled.types typeNode .root).trans (stays ▸ hn))
        obtain ⟨l, terms⟩ := term
        obtain ⟨shown, here, shell, each⟩ := means.shown
        have larger := (recalled.pool.trans tail.pool).trans hfu
        obtain rfl : shown = .type (.tuple names) :=
          Option.some.inj (Except.ok.inj ((larger.get here).symm.trans isTuple))
        obtain rfl := fieldsOf declared names rfl here
        replace each : List.Forall₂ s.pool.Means names terms := each
        rw [← shell, Term.node_tupleType each] at means
        have size : names.length = es.length := by simpa using sized
        refine confirms_validateTupleElements judges hu dcl (spares.pool.trans hg) recalls
          ((List.length_map some).trans (each.length_eq.symm.trans size)) hf ripeElements
          (fun i want wanted => ?_) ?_ ran
        · have lengths : names.length = terms.length := each.length_eq
          have wanted : terms[i]? = some want := by simpa using wanted
          obtain ⟨inRange, -⟩ := List.getElem?_eq_some_iff.mp wanted
          have hasName : names[i]? = some names[i] := List.getElem?_eq_getElem (by omega)
          exact ⟨names, _, rfl, size, hasName, Pool.getElem?_of_forall₂ each i _ _ hasName wanted⟩
        · rintro _ ⟨⟩
          exact ⟨terms, rfl, means⟩
      · obtain ⟨u, v, -, ran⟩ := bind_ok.mp ran
        simp at ran


end Parts

theorem judges_validateExprWithin (n : Nat) :
    Judges s₀ r ks fst final n := by
  induction n with
  | zero =>
    intro id req wanted w node t₁ _ _ _ _ ran
    simp [validateExprWithin] at ran
  | succ n ih =>
    intro id req wanted w node t₁ hu ripe hg wants ran recalls dcl
    obtain ⟨mid, ran, p, facts⟩ := once_untouched hu ripe ran
    generalize begins : w.withTree (w.tree.setStage id .validating) = begun at ran
    have samePool : begun.pool = w.pool := by rw [← begins]; rfl
    have ripeChild : ∀ c ∈ s₀.children id, begun.Ripe s₀ c := fun c mem =>
      begins ▸ ripe.begun hu.linked hu.below mem .validating
    have form : begun.tree.expr? id = s₀.expr? id := by
      simp [← begins, Work.withTree, Tree.setStage, Tree.expr?, ripe.form? .root]
    have binding : (begun.tree.facts id).binding = (s₀.facts id).binding := by
      rw [← begins, ← ripe.facts .root]
      exact w.tree.facts_modify_of Facts.binding (fun _ => by rfl) id id
    have inv := validationInvariant_spares s₀ id w
    have spares : w.Spares s₀ id begun :=
      begins ▸ (ripe.spares hu.linked hu.below).noted .root _
    replace ran := rest_ok ran rfl
    rw [form] at ran
    cases hf : s₀.expr? id with
    | none => simp [hf] at ran
    | some expr =>
      rw [hf] at form
      have has : w.tree.Has id := by
        have has := begun.tree.has_of_expr form
        rwa [Tree.has_iff_lt, spares.size, ← Tree.has_iff_lt] at has
      have visits : ∀ c ∈ expr.children, s₀.Below id c := fun c mem =>
        Tree.Below.root.child (by rwa [s₀.children_of_expr hf])
      have sound : Sound (.within s₀ id) (w.Spares s₀ id) (fun _ _ => True)
          (validateExprWithin n) := inv.checking.guided_validateExprWithin n
      have hs : ∀ {step : WorkM (Option Typed)},
          Rates (.within s₀ id) (w.Spares s₀ id) (fun _ _ => True) id expr step begun →
          settling id req step begun = .ok (some node) mid →
          (∀ s ty k, step begun = .ok (some (ty, k)) s →
            (∀ c ∈ s₀.children id, final.Recalls s₀ c s) → Confirms s₀ ks n id s.pool ty k) →
          t₁.Judges s₀ ks (n + 1) id wanted node := by
        intro step rates ran confirms
        obtain ⟨typed, s, stepped, ran⟩ := bind_ok.mp ran
        have sparesStep : w.Spares s₀ id s := by
          have spared := rates.1.holds
          rwa [stepped] at spared
        rcases typed with _ | ⟨ty, k⟩
        · simp at ran
        · have hasStep : s.tree.Has id := by
            rwa [Tree.has_iff_lt, sparesStep.size, ← Tree.has_iff_lt]
          obtain ⟨rfl, larger, fr, hn, valued, judged⟩ :=
            settleExpr_ok hasStep ran
          have recallsStep : ∀ c ∈ s₀.children node, final.Recalls s₀ c s := by
            refine fun c mem => ⟨(p ▸ recalls.pool).trans larger, fun x under => ?_⟩
            have apart : x ≠ node := by
              rintro rfl
              exact hu.linked.not_below_child hu.below mem under
            rw [recalls.types x ((Tree.Below.root.child mem).trans under), (facts x).1,
              Tree.facts, fr x apart, Tree.facts]
          refine ⟨ty, (facts node).1.trans hn, ?_⟩
          rw [(facts node).2, valued, p]
          refine judged wanted _ _ (fun want asks => ?_) (confirms s ty k stepped recallsStep)
          obtain ⟨asked, rfl, means⟩ := wants want asks
          exact ⟨asked, rfl, means.extends sparesStep.pool⟩
      have grownBegun : begun.pool.Extends fst := samePool ▸ hg
      simp only [hf] at ran
      cases expr with
      | literal literal =>
        exact hs (inv.checking.rates_validateLiteral id literal spares) ran fun s ty k stepped _ =>
          confirms_validateLiteral hf stepped
      | name name =>
        refine hs (inv.checking.rates_validateName id name spares) ran fun s ty k stepped _ =>
          confirms_validateName hf binding (fun ty v bound => ?_) stepped
        obtain ⟨is, means, hasType, meansType⟩ := dcl.named id ty v .root bound
        exact ⟨is, means.extends grownBegun, hasType, meansType.extends grownBegun⟩
      | unary op arg =>
        exact hs (inv.checking.rates_validateUnary sound id op (visits arg (by simp [Expr.children]))
            spares) ran
          fun s ty k stepped recalled =>
            confirms_validateUnary ih hu dcl ripeChild grownBegun recalled hf stepped
      | binary op lhs rhs =>
        exact hs (inv.checking.rates_validateBinary sound id op (visits lhs (by simp [Expr.children]))
            (visits rhs (by simp [Expr.children])) spares) ran
          fun s ty k stepped recalled =>
            confirms_validateBinary ih hu dcl ripeChild grownBegun recalled hf stepped
      | tuple typeNode es =>
        exact hs (inv.checking.rates_validateTuple sound n id
            (fun node mem => visits node (by simp_all [Expr.children]))
            (fun node mem => visits node (by simp [Expr.children, mem])) req spares) ran
          fun s ty k stepped recalled =>
            confirms_validateTuple ih hu dcl ripeChild grownBegun recalled hf stepped
      | paren i =>
        have mem : i ∈ s₀.children id := by simp [s₀.children_of_expr hf, Expr.children]
        obtain ⟨ans, s, ranInner, ran⟩ := bind_ok.mp ran
        obtain ⟨rfl, kept, samePool'⟩ : ans = some node ∧
            (∀ x, mid.tree.facts x = s.tree.facts x) ∧ mid.pool = s.pool := by
          replace ran := rest_ok ran rfl
          generalize s.tree.parent? id = up at ran
          rcases ans with _ | new <;> rcases up with _ | up
          case some.some =>
            obtain ⟨swapped, replaced, eq⟩ := bind_pure_ok.mp ran
            obtain ⟨-, rfl⟩ := onTree_ok.mp replaced
            exact ⟨eq, s.tree.facts_replaceChild up id new, rfl⟩
          all_goals
            obtain ⟨eq, rfl⟩ := pure_ok.mp ran
            exact ⟨eq, fun _ => rfl, rfl⟩
        obtain ⟨ty, hn, judged⟩ := ih (hu.child mem) (ripeChild i mem) grownBegun
          (samePool ▸ wants) ranInner
          ⟨samePool' ▸ p ▸ recalls.pool, fun x under => by
            rw [recalls.types x ((Tree.Below.root.child mem).trans under), (facts x).1, kept]⟩
          (dcl.part mem)
        refine ⟨ty, by rw [(facts node).1, kept, hn], ?_⟩
        rw [(facts node).2, kept, p, samePool']
        have step : ∀ locals, s₀.evaluate ks locals (n + 1) id =
            s₀.evaluate ks locals n i := fun locals => by rw [Tree.evaluate, hf]
        simp only [step]
        exact ⟨judged.known, fun none closed => judged.unknown none (closed.child mem)⟩

end Validation

end TreeCompiler
