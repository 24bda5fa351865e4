import TreeCompiler.Proofs.CarefulPools
import TreeCompiler.Proofs.EvaluatedExpressions

/-!
# Constants of expressions

The constant that validation notes at an expression is what the expression evaluates to, whatever
its locals are, and it has the type noted with it. An expression without locals gets no constant
only if its evaluation ends with a fault. A tuple that is declared to have a type that is no tuple
type is accepted, and there the type is not that of the constant.
-/

namespace TreeCompiler

open Step PoolM WorkM Evaluation Validation

/-! ### Strings joined with something else -/

/-- Whether a value is a string. -/
def Term.isString : Term → Bool
  | node (.string _) _ => true
  | node .. => false

theorem Term.exists_of_isString {v : Term} (isString : v.isString = true) :
    ∃ text ps, v = node (.string text) ps := by
  match v with
  | node (.string text) ps => exact ⟨text, ps, rfl⟩

/-- No sum under a node joins a string with something else. -/
def Tree.JoinsAlike (tree : Tree) (ks : ConstId → Term) (id : NodeId) : Prop :=
  ∀ x lhs rhs locals depth left right, tree.Below id x →
    tree.expr? x = some (.binary .add lhs rhs) → tree.evaluate ks locals depth lhs = pure left →
    tree.evaluate ks locals depth rhs = pure right → left.isString = right.isString

namespace Evaluation

variable {α β : Type}

theorem bind_eq_throw {step : Evaluation α} {next : α → Evaluation β} {fault : Fault}
    (hx : step >>= next = throw fault) :
    step = throw fault ∨ ∃ v, step = pure v ∧ next v = throw fault := by
  match step with
  | none => exact nomatch hx
  | some (.error x) => exact .inl (by cases hx; rfl)
  | some (.ok v) => exact .inr ⟨v, rfl, hx⟩

theorem mapM_eq_throw {f : α → Evaluation β} {entries : List α} {fault : Fault}
    (hx : entries.mapM f = throw fault) : ∃ entry ∈ entries, f entry = throw fault := by
  induction entries with
  | nil => exact nomatch hx
  | cons entry rest ih =>
    rw [List.mapM_cons] at hx
    rcases bind_eq_throw hx with here | ⟨v, -, hx⟩
    · exact ⟨entry, List.mem_cons_self, here⟩
    · rcases bind_eq_throw hx with later | ⟨vals, -, hx⟩
      · obtain ⟨x, mem, hx⟩ := ih later
        exact ⟨x, List.mem_cons_of_mem _ mem, hx⟩
      · exact nomatch hx

theorem exactly_ne_mixed (number : Int) : exactly number ≠ throw .mixed := by
  unfold exactly
  split <;> exact nofun

theorem applyUnary_ne_mixed (op : UnaryOp) (v : Term) : applyUnary op v ≠ throw .mixed := by
  unfold applyUnary
  split
  · exact nofun
  · exact exactly_ne_mixed _
  · exact nofun

theorem applyInts_ne_mixed (op : BinaryOp) (left right : Int64) :
    applyInts left right op ≠ throw .mixed := by
  cases op with
  | add | sub | mul => exact exactly_ne_mixed _
  | div =>
    rw [applyInts]
    split
    · exact nofun
    · exact exactly_ne_mixed _
  | mod =>
    rw [applyInts]
    split
    · exact nofun
    · split
      · exact nofun
      · exact exactly_ne_mixed _
  | _ => exact nofun

theorem applyBinary_eq_mixed {op : BinaryOp} {left right : Term}
    (mixed : applyBinary op left right = throw .mixed) : op = .add ∧
    left.isString ≠ right.isString := by
  unfold applyBinary at mixed
  split at mixed
  · exact nomatch mixed
  · exact nomatch mixed
  · exact absurd mixed (applyInts_ne_mixed _ _ _)
  · cases op <;> exact nomatch mixed
  · exact nomatch mixed
  · next notString =>
    refine ⟨rfl, fun eq => ?_⟩
    obtain ⟨text, ps, he⟩ := Term.exists_of_isString eq.symm
    exact notString text ps he
  · next notString =>
    refine ⟨rfl, fun eq => ?_⟩
    obtain ⟨text, ps, he⟩ := Term.exists_of_isString eq
    exact notString text ps he
  · exact nomatch mixed

end Evaluation

/-- Only a string that is joined with something else is left to run time. -/
theorem Tree.JoinsAlike.evaluate_ne_mixed {tree : Tree} {ks : ConstId → Term} {id : NodeId}
    (alike : tree.JoinsAlike ks id) (locals : NodeId → Term) (depth : Nat) :
    tree.evaluate ks locals depth id ≠ throw .mixed := by
  induction depth generalizing id with
  | zero => exact fun mixed => by cases mixed
  | succ depth ih =>
    have part : ∀ c ∈ tree.children id, tree.evaluate ks locals depth c ≠ throw .mixed :=
      fun c mem => ih fun x lhs rhs locals depth left right under =>
        alike x lhs rhs locals depth left right ((Below.root.child mem).trans under)
    intro mixed
    rw [Tree.evaluate] at mixed
    cases hf : tree.expr? id with
    | none => simp [hf] at mixed; cases mixed
    | some expr =>
      rw [tree.children_of_expr hf] at part
      simp only [hf] at mixed
      cases expr with
      | literal literal => cases mixed
      | name name =>
        simp only at mixed
        split at mixed <;> cases mixed
      | paren i => exact part i (by simp [Expr.children]) mixed
      | unary op arg =>
        rcases bind_eq_throw mixed with i | ⟨v, -, mixed⟩
        · exact part arg (by simp [Expr.children]) i
        · exact applyUnary_ne_mixed op v mixed
      | binary op lhs rhs =>
        have partRight := part rhs (by simp [Expr.children])
        rcases bind_eq_throw mixed with i | ⟨left, ranLeft, mixed⟩
        · exact part lhs (by simp [Expr.children]) i
        · split at mixed
          · cases mixed
          · cases mixed
          · exact partRight mixed
          · exact partRight mixed
          · cases mixed
          · cases mixed
          · rcases bind_eq_throw mixed with i | ⟨right, ranRight, mixed⟩
            · exact partRight i
            · obtain ⟨rfl, differ⟩ := applyBinary_eq_mixed mixed
              exact differ (alike id lhs rhs locals depth left right .root hf ranLeft ranRight)
      | tuple ty es =>
        rcases bind_eq_throw mixed with i | ⟨vals, -, mixed⟩
        · obtain ⟨elem, mem, hx⟩ := mapM_eq_throw i
          exact part elem (by simp [Expr.children, mem]) hx
        · cases mixed

/-! ### What constants are defined as -/

/-- The constants of a table were defined as such, in a pool that became the given one. -/
def SymbolTable.Defines (table : SymbolTable) (p : Pool) : Prop :=
  ∀ sym ∈ table.symbols, ∀ ty v, sym.component = .constant ty v →
    ∃ (earlier : SymbolTable) (b defined : Pool), earlier.defineConstant sym.name v b =
        (.ok ⟨earlier.symbols ++ [sym]⟩, defined) ∧ defined.Evolves p

/-- The constants named under a node are those of a table. -/
def Tree.NamesFrom (tree : Tree) (table : SymbolTable) (id : NodeId) : Prop :=
  ∀ x ty v, tree.Below id x → (tree.facts x).binding = some (.constant ty v) →
    ∃ sym ∈ table.symbols, sym.component = .constant ty v

theorem SymbolTable.typeOf_of_defineConstant {table : SymbolTable} {sym : Symbol} {ty v : ConstId}
    {b defined : Pool} (isConstant : sym.component = .constant ty v)
    (ran : table.defineConstant sym.name v b = (.ok ⟨table.symbols ++ [sym]⟩, defined)) :
    typeOf v b = .ok ty defined := by
  unfold defineConstant at ran
  cases typed : (typeOf v).run b with
  | error error p => simp [typed] at ran
  | ok got p =>
    simp only [typed, Prod.mk.injEq] at ran
    obtain ⟨added, rfl⟩ := ran
    unfold define at added
    split at added
    · simp at added
    · have eq : sym = { name := sym.name, component := .constant got v } := by
        simpa using (Except.ok.inj added).symm
      rw [eq] at isConstant
      obtain ⟨rfl, -⟩ := Component.constant.inj isConstant
      exact typed

theorem SymbolTable.Defines.namesValues {table : SymbolTable} {p : Pool} (defines : table.Defines p)
    {tree : Tree} {id : NodeId} (names : tree.NamesFrom table id) :
    ∃ ks, tree.NamesValues ks p id := by
  have each : ∀ v, ∃ term, ∀ x, p.Means v x → x = term := by
    intro v
    by_cases hk : ∃ term, p.Means v term
    · obtain ⟨term, means⟩ := hk
      exact ⟨term, fun x again => again.unique means⟩
    · exact ⟨.bool true, fun x means => absurd ⟨x, means⟩ hk⟩
  choose ks all using each
  refine ⟨ks, fun x ty v under bound => ?_⟩
  obtain ⟨sym, mem, isConstant⟩ := names x ty v under bound
  obtain ⟨he, b, defined, ran, evolves⟩ := defines sym mem ty v isConstant
  obtain ⟨now, eq, hl, typed⟩ := bind_ok.mp (typeOf_of_defineConstant isConstant ran)
  obtain ⟨-, term, is, means, hasType, meansType⟩ := Pool.types_of_typeOfWithin typed
  obtain rfl := all v term (evolves.retains _ _ means)
  exact ⟨is, evolves.retains _ _ means, hasType, evolves.retains _ _ meansType⟩

namespace Validation

variable {root id node : NodeId} {work after : Work} {required : Option ConstId} {depth : Nat}

/-- What is noted at an expression that validation comes to for the first time is borne out by its
evaluation. -/
theorem judges_of_validateExprWithin {ks : ConstId → Term}
    (hu : work.tree.Untouched root id)
    (hn : work.tree.NamesValues ks work.pool id)
    (ran : validateExprWithin depth id required work = .ok (some node) after)
    (tuples : after.TypesTuples work.tree id) : after.Judges work.tree ks depth id none node :=
  judges_validateExprWithin depth hu (fun _ _ => rfl) (.refl _) (by simp) ran
    ⟨.refl _, fun _ _ => rfl⟩ ⟨tuples, hn⟩

/-- The constant of an expression is what the expression evaluates to, whatever the values of its
locals are. An expression that names no local and joins no string with anything else has no constant
only if its evaluation overflows or divides by zero. -/
theorem constant_eq_evaluate {constants : ConstId → Term} (untouched : work.tree.Untouched root id)
    (named : work.tree.NamesValues constants work.pool id)
    (ran : validateExprWithin depth id required work = .ok (some node) after)
    (tuples : after.TypesTuples work.tree id) :
    (∀ value, (after.tree.facts node).constant = some value → ∃ term, after.pool.Means value term ∧
      ∀ locals, work.tree.evaluate constants locals depth id = pure term) ∧
    ((after.tree.facts node).constant = none → work.tree.Closed id →
    work.tree.JoinsAlike constants id →
      ∀ locals, work.tree.evaluate constants locals depth id = throw .overflow ∨
        work.tree.evaluate constants locals depth id = throw .divisionByZero) := by
  obtain ⟨type, -, judged⟩ := judges_of_validateExprWithin untouched named ran tuples
  refine ⟨fun value known => ?_, fun unknown closed alike locals => ?_⟩
  · obtain ⟨term, -, -, means, -, -, -, -, evaluates⟩ := judged.known value known
    exact ⟨term, means, evaluates⟩
  · obtain ⟨fault, failed⟩ := judged.unknown unknown closed locals
    cases fault with
    | overflow => exact .inl failed
    | divisionByZero => exact .inr failed
    | mixed => exact absurd failed (alike.evaluate_ne_mixed locals depth)

/-- A pair of integers that is declared as one, with a named constant: `(LIMIT + 1)` and `-7`. -/
def limitPair : Work where
  tree := {
    nodes := #[{ form := .type (.named ["Int"] []), parent := some ⟨2⟩, facts := { type := some ⟨0⟩ } },
      { form := .type (.named ["Int"] []), parent := some ⟨2⟩, facts := { type := some ⟨0⟩ } },
      { form := .type (.tuple [⟨0⟩, ⟨1⟩]), parent := some ⟨9⟩ },
      { form := .expr (.name "LIMIT"), parent := some ⟨5⟩
        facts := { binding := some (.constant ⟨0⟩ ⟨1⟩) } },
      { form := .expr (.literal (.int 1)), parent := some ⟨5⟩ },
      { form := .expr (.binary .add ⟨3⟩ ⟨4⟩), parent := some ⟨6⟩ },
      { form := .expr (.paren ⟨5⟩), parent := some ⟨9⟩ },
      { form := .expr (.literal (.int 7)), parent := some ⟨8⟩ },
      { form := .expr (.unary .neg ⟨7⟩), parent := some ⟨9⟩ },
      { form := .expr (.tuple (some ⟨2⟩) [⟨6⟩, ⟨8⟩]) }]
    root := some ⟨9⟩ }
  pool := Pool.empty.run [.intern (.type (.named "Int")), .intern (.int 41)]
  symbols := { symbols := [{ name := "LIMIT", component := .constant ⟨0⟩ ⟨1⟩ }] }

theorem limitPair_untouched : limitPair.tree.Untouched ⟨9⟩ ⟨9⟩ :=
  Tree.untouched_of_table (by decide) (by decide) (by decide)

/-- The only name is bound to the only constant. -/
theorem limitPair_bound {x : NodeId} {ty v : ConstId}
    (bound : (limitPair.tree.facts x).binding = some (.constant ty v)) : ty = ⟨0⟩ ∧ v = ⟨1⟩ := by
  obtain ⟨i⟩ := x
  match i with
  | 3 =>
    cases bound
    exact ⟨rfl, rfl⟩
  | 0 | 1 | 2 | 4 | 5 | 6 | 7 | 8 | 9 | _ + 10 => exact nomatch bound

theorem limitPair_run : ∃ after, validateExprWithin 5 ⟨9⟩ none limitPair = .ok (some ⟨9⟩) after ∧
    (after.tree.facts ⟨9⟩).type = some ⟨2⟩ ∧ (after.tree.facts ⟨9⟩).constant = some ⟨9⟩ ∧
    after.TypesTuples limitPair.tree ⟨9⟩ := by
  have ends : Step.succeeds (validateExprWithin 5 ⟨9⟩ none) limitPair (fun node after =>
      node == some ⟨9⟩ && (after.tree.facts ⟨9⟩).type == some ⟨2⟩ &&
      (after.tree.facts ⟨9⟩).constant == some ⟨9⟩ && (after.tree.facts ⟨2⟩).type == some ⟨2⟩ &&
      after.pool.entry? ⟨2⟩ == some (.value (.type (.tuple [⟨0⟩, ⟨0⟩])))) = true := by cbv
  obtain ⟨node, after, ran, ends⟩ := Step.succeeds_iff.mp ends
  simp only [Bool.and_eq_true, beq_iff_eq, and_assoc] at ends
  obtain ⟨rfl, typed, hk, hn, here⟩ := ends
  refine ⟨after, ran, typed, hk, ?_⟩
  rintro ⟨i⟩ ty es declared - hf dcl
  rcases i with _ | _ | _ | _ | _ | _ | _ | _ | _ | _ | _ <;> cases hf
  cases hn.symm.trans dcl
  exact ⟨_, Pool.get_of_value here⟩

/-- The pair is known to be 42 and -7. -/
theorem limitPair_evaluates : ∃ after term, validateExprWithin 5 ⟨9⟩ none limitPair = .ok
    (some ⟨9⟩) after ∧ (after.tree.facts ⟨9⟩).constant = some ⟨9⟩ ∧ after.pool.Means ⟨9⟩ term ∧
    ∀ locals, limitPair.tree.evaluate (fun _ => .node (.int 41) []) locals 5 ⟨9⟩ = pure term := by
  obtain ⟨after, ran, -, known, tuples⟩ := limitPair_run
  have named : limitPair.tree.NamesValues (fun _ => .node (.int 41) []) limitPair.pool ⟨9⟩ := by
    intro other type value _ bound
    obtain ⟨rfl, rfl⟩ := limitPair_bound bound
    exact ⟨.namedType "Int", @Pool.Means.intro _ _ (.int 41) [] rfl rfl nofun, .int 41,
      @Pool.Means.intro _ _ (.type (.named "Int")) [] rfl rfl nofun⟩
  obtain ⟨term, means, evaluates⟩ :=
    (constant_eq_evaluate limitPair_untouched named ran tuples).1 ⟨9⟩ known
  exact ⟨after, term, ran, known, means, evaluates⟩

/-- The type of the constant of an expression fits the type of the expression. -/
theorem constant_fits_type (untouched : work.tree.Untouched root id)
    (defines : work.symbols.Defines work.pool) (names : work.tree.NamesFrom work.symbols id)
    (ran : validateExprWithin depth id required work = .ok (some node) after)
    (tuples : after.TypesTuples work.tree id) {type value : ConstId}
    (typed : (after.tree.facts node).type = some type)
    (known : (after.tree.facts node).constant = some value) :
    ∃ is pool fit last, typeOf value after.pool = .ok is pool ∧
      Validation.fit is type pool = .ok fit last ∧ fit.isFit = true := by
  obtain ⟨constants, named⟩ := defines.namesValues names
  obtain ⟨other, noted, judged⟩ := judges_of_validateExprWithin untouched named ran tuples
  cases typed.symm.trans noted
  obtain ⟨term, given, want, means, hasType, meansType, fits, -⟩ := judged.known value known
  obtain ⟨spares, -⟩ := spares_validateExprWithin untouched.linked untouched.below (fun _ _ => rfl) ran
  obtain ⟨is, pool, ranType, larger, meansIs⟩ := Pool.gives_typeOf means hasType
  obtain ⟨fit, last, ranFit, -, -, decides⟩ := gives_fit meansIs
    (meansType.extends larger)
  exact ⟨is, pool, fit, last, ranType, ranFit, decides hasType.typed fits⟩

theorem limitPair_fits : ∃ after is pool fit last,
    validateExprWithin 5 ⟨9⟩ none limitPair = .ok (some ⟨9⟩) after ∧
    (after.tree.facts ⟨9⟩).type = some ⟨2⟩ ∧ (after.tree.facts ⟨9⟩).constant = some ⟨9⟩ ∧
    typeOf ⟨9⟩ after.pool = .ok is pool ∧ Validation.fit is ⟨2⟩ pool = .ok fit last ∧
    fit.isFit = true := by
  obtain ⟨after, ran, typed, known, tuples⟩ := limitPair_run
  have defines : limitPair.symbols.Defines limitPair.pool := by
    intro symbol member type value isConstant
    obtain rfl := List.mem_singleton.mp member
    cases isConstant
    exact ⟨{}, limitPair.pool, limitPair.pool, by cbv, .refl _⟩
  have names : limitPair.tree.NamesFrom limitPair.symbols ⟨9⟩ := by
    intro other type value _ bound
    obtain ⟨rfl, rfl⟩ := limitPair_bound bound
    exact ⟨_, List.mem_singleton.mpr rfl, rfl⟩
  obtain ⟨is, pool, fit, last, ranType, ranFit, fits⟩ :=
    constant_fits_type limitPair_untouched defines names ran tuples typed known
  exact ⟨after, is, pool, fit, last, ran, typed, known, ranType, ranFit, fits⟩

/-- A pair of integers that is declared as an integer: `Int(1, 2)`. -/
def pairAsInt : Work where
  tree := {
    nodes := #[{ form := .type (.named ["Int"] []), parent := some ⟨3⟩, facts := { type := some ⟨0⟩ } },
      { form := .expr (.literal (.int 1)), parent := some ⟨3⟩ },
      { form := .expr (.literal (.int 2)), parent := some ⟨3⟩ },
      { form := .expr (.tuple (some ⟨0⟩) [⟨1⟩, ⟨2⟩]) }]
    root := some ⟨3⟩ }
  pool := Pool.empty.run [.intern (.type (.named "Int"))]

/-- The pair is validated as an integer, while its constant is a pair. -/
theorem pairAsInt_does_not_fit : ∃ after is pool last,
    validateExprWithin 5 ⟨3⟩ none pairAsInt = .ok (some ⟨3⟩) after ∧
    (after.tree.facts ⟨3⟩).type = some ⟨0⟩ ∧ (after.tree.facts ⟨3⟩).constant = some ⟨3⟩ ∧
    typeOf ⟨3⟩ after.pool = .ok is pool ∧ Validation.fit is ⟨0⟩ pool = .ok .fail last := by
  have ends : Step.succeeds (validateExprWithin 5 ⟨3⟩ none) pairAsInt (fun node after =>
      node == some ⟨3⟩ && (after.tree.facts ⟨3⟩).type == some ⟨0⟩ &&
      (after.tree.facts ⟨3⟩).constant == some ⟨3⟩ &&
      Step.succeeds (typeOf ⟨3⟩) after.pool fun is pool =>
        Step.succeeds (Validation.fit is ⟨0⟩) pool fun fit _ => fit == .fail) = true := by cbv
  obtain ⟨node, after, ran, ends⟩ := Step.succeeds_iff.mp ends
  simp only [Bool.and_eq_true, beq_iff_eq, and_assoc] at ends
  obtain ⟨rfl, typed, known, ends⟩ := ends
  obtain ⟨is, pool, ranType, ends⟩ := Step.succeeds_iff.mp ends
  obtain ⟨fit, last, ranFit, fails⟩ := Step.succeeds_iff.mp ends
  obtain rfl := beq_iff_eq.mp fails
  exact ⟨after, is, pool, last, ran, typed, known, ranType, ranFit⟩

end Validation

end TreeCompiler
