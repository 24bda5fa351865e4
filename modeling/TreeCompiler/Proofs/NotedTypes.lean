import TreeCompiler.Proofs.ResolvedNames
import TreeCompiler.Proofs.ValidationStops

/-!
# The types that resolution notes

Resolution notes types at type expressions. It takes them from the symbol table and the built-in
classes, opens placeholders for those it does not know yet, and builds types from others that were
noted. What is said of the types from each of these sources is said of every type that is noted.
-/

namespace TreeCompiler

open Step

/-- A constant that a binding names is one of the symbol table. -/
def Work.Finds (w : Work) (binding : Binding) : Prop :=
  ∀ type v, binding = .constant type v → ∃ sym ∈ w.symbols.symbols, sym.component = .constant type v

/-- A property of the work that resolution keeps, with what it says of the types that are noted and
of those that a name was found to denote. -/
structure TypingInvariant (P : Work → Prop) (Held Known : Pool → ConstId → Prop) : Prop where
  known : ∀ {p type}, Known p type → Held p type
  noted : ∀ {w id type}, P w → (w.tree.facts id).type = some type → Held w.pool type
  symbol : ∀ {w sym type}, P w → sym ∈ w.symbols.symbols → sym.component = .type type →
    Known w.pool type
  lookup : ∀ {w} sc name, P w → P { w with symbols := (w.symbols.lookup sc name).2 }
  intern : ∀ {w k}, P w → (∀ c ∈ k.children, Held w.pool c) →
    Goes (Work.Upholds P Held) (WorkM.onPool (.intern k)) (fun id u => Held u.pool id) w
  named : ∀ {w} name, P w →
    Goes (Work.Upholds P Held) (WorkM.onPool (.namedType name)) (fun type u => Known u.pool type) w
  canonical : ∀ {w current}, P w → w.pool.isResolved current = .ok true →
    Goes (Work.Upholds P Held) (WorkM.onPool (.canonical current)) (fun twin u => Known u.pool twin) w
  placeholder : ∀ {w} name, P w →
    Goes (Work.Upholds P Held) (WorkM.onPool (.newPlaceholder name)) (fun hole u => Held u.pool hole) w
  fill : ∀ {w type} hole, P w → Known w.pool type →
    Goes (Work.Upholds P Held) (WorkM.onPool (.fill hole type)) (fun _ _ => True) w
  type : ∀ {w type} id, P w → Held w.pool type →
    P (w.withTree (w.tree.modifyFacts id fun facts => { facts with type := some type }))
  bind : ∀ {w binding} id, P w → w.Finds binding →
    P (w.withTree (w.tree.modifyFacts id fun facts => { facts with binding := some binding }))
  stage : ∀ {w} id stage, P w → P (w.withTree (w.tree.setStage id stage))
  report : ∀ {w} diag, P w → P (w.reported diag)

namespace Resolution

open WorkM

variable {w : Work} {α : Type}

theorem goes_attempt {step : WorkM α} {R : Work → Work → Prop} {Q : α → Work → Prop}
    (goes : Goes R step Q w) : Goes R (attempt step) (fun ans u => ∀ a, ans = .ok a → Q a u) w := by
  have hr := goes.1
  cases ran : step w with
  | ok a u =>
    rw [ran] at hr
    refine Goes.of_ok (a := .ok a) (t := u) (by simp [attempt, ran]) hr ?_
    rintro _ ⟨rfl⟩
    exact goes.2 a u ran
  | error defect u =>
    rw [ran] at hr
    exact Goes.of_ok (a := .error defect) (t := u) (by simp [attempt, ran]) hr (by simp)

theorem goes_some {step : WorkM ConstId} {Held : Pool → ConstId → Prop} {R : Work → Work → Prop}
    (goes : Goes R step (fun id u => Held u.pool id) w) :
    Goes R (some <$> step) (fun hf u => ∀ id, hf = some id → Held u.pool id) w := by
  refine goes.map.answering fun hf u _ ans => ?_
  obtain ⟨id, rfl, held⟩ := ans
  rintro _ ⟨rfl⟩
  exact held

theorem goes_of_pool {step : PoolM α} {S : Pool → Pool → Prop} {R : Work → Work → Prop}
    {Q : α → Pool → Prop} (goes : Goes S step Q w.pool)
    (lifts : ∀ p, S w.pool p → R w (w.withPool p)) :
    Goes R (onPool step) (fun a u => Q a u.pool) w := by
  have changes := goes.1
  cases ran : step w.pool with
  | ok a p =>
    rw [ran] at changes
    exact Goes.of_ok (onPool_ok.mpr ⟨p, ran, rfl⟩) (lifts p changes) (goes.2 a p ran)
  | error error p =>
    rw [ran] at changes
    refine Goes.of_error (e := .pool error) (t := w.withPool p) ?_ (lifts p changes)
    unfold onPool
    rw [ran]
    rfl

end Resolution

namespace TypingInvariant

open WorkM Resolution
open ExpressionInvariant (goes_pure goes_unpooled upheld_bind upheld_pure upheld_stage upheld_throw
  upholds_refl)

variable {P : Work → Prop} {Held Known : Pool → ConstId → Prop} {w : Work} {type : ConstId} {α : Type}

theorem goes_readPool {look : Pool → Except PoolError α} (h : P w) :
    Goes (Work.Upholds P Held) (readPool look) (fun _ u => u = w) w := by
  cases ask : look w.pool with
  | ok answer => exact Goes.of_ok (readPool_ok.mpr ⟨ask, rfl⟩) (upholds_refl h) rfl
  | error error => exact Goes.of_error (readPool_of_error ask) (upholds_refl h)

theorem goes_allKnown {look : NodeId → WorkM (Option ConstId)}
    (each : ∀ {now : Work} id, P now → Gives P Held (look id) now)
    (ids : List NodeId) (h : P w) :
    Goes (Work.Upholds P Held) (allKnown look ids)
      (fun types u => ∀ got, types = some got → ∀ type ∈ got, Held u.pool type) w := by
  induction ids generalizing w with
  | nil =>
    refine goes_pure h ?_
    rintro _ ⟨rfl⟩
    simp
  | cons id rest ih =>
    refine Goes.bind (each id h) fun type first upholdsFirst held => ?_
    cases type with
    | none => exact goes_pure upholdsFirst.holds (by simp)
    | some type =>
      refine Goes.bind (ih upholdsFirst.holds) fun types u hu heldRest =>
        goes_pure hu.holds fun got isFound => ?_
      obtain ⟨others, rfl, rfl⟩ := Option.map_eq_some_iff.mp isFound
      intro type mem
      rcases List.mem_cons.mp mem with rfl | mem
      · exact hu.held _ (held _ rfl)
      · exact heldRest others rfl type mem

variable (inv : TypingInvariant P Held Known)

include inv

theorem goes_parameterizedType {base : ConstId} {ps : List ConstId} (h : P w)
    (heldBase : Held w.pool base) (heldParams : ∀ param ∈ ps, Held w.pool param) :
    Goes (Work.Upholds P Held) (onPool (.parameterizedType base ps))
    (fun type u => Held u.pool type) w := by
  cases ps with
  | nil => exact Goes.of_ok rfl (upholds_refl h) heldBase
  | cons param rest =>
    refine inv.intern h fun c mem => ?_
    rcases List.mem_cons.mp mem with rfl | mem
    · exact heldBase
    · exact heldParams c mem

theorem goes_currentTypeWithin (n : Nat) (id : NodeId) (h : P w) :
    Gives P Held (currentTypeWithin n id) w := by
  induction n generalizing id w with
  | zero => exact Goes.throw (upholds_refl h)
  | succ n ih =>
    have unknown : ∀ {now : Work}, P now → Gives P Held
        (pure none : WorkM (Option ConstId)) now :=
      fun h => goes_pure h (by simp)
    refine goes_tree ?_
    split
    · exact unknown h
    · split
      · exact Goes.throw (upholds_refl h)
      · refine Goes.bind (goes_allKnown ih _ h) fun ps u hu held => ?_
        split
        · rename_i base ps hn
          exact goes_some (inv.goes_parameterizedType hu.holds (hu.held _ (inv.noted h hn)) (held ps rfl))
        · exact unknown hu.holds
      · exact goes_pure h fun _ hn => inv.noted h hn
      · refine Goes.bind (goes_allKnown ih _ h) fun types u hu held => ?_
        cases types with
        | none => exact unknown hu.holds
        | some types =>
          exact goes_some (inv.intern hu.holds (held types rfl))
      · refine Goes.bind (ih _ h) fun base u hu held => ?_
        cases base with
        | none => exact unknown hu.holds
        | some base =>
          refine goes_some (inv.intern hu.holds ?_)
          simpa [Constant.children, TypeConstant.children] using held base rfl
      · exact unknown h

theorem goes_currentType (id : NodeId) (h : P w) : Gives P Held (currentType id) w :=
  goes_tree (inv.goes_currentTypeWithin _ id h)

theorem goes_typedefType (typedef : NodeId) (h : P w) :
    Goes (Work.Upholds P Held) (typedefType typedef)
      (fun type u => ∀ got, type = some got → Known u.pool got) w := by
  have unknown : ∀ {now : Work}, P now → Goes (Work.Upholds P Held)
      (pure none : WorkM (Option ConstId))
      (fun type u => ∀ got, type = some got → Known u.pool got) now :=
    fun h => goes_pure h (by simp)
  refine goes_tree ?_
  split
  · refine Goes.bind (goes_attempt (inv.goes_currentType _ h)) fun current mid hu _ => ?_
    split
    · refine Goes.get ?_
      split
      · rename_i current _ res
        refine Goes.bind (goes_attempt (inv.canonical hu.holds res)) fun twin u hf ans =>
          goes_pure hf.holds fun got isFound => ?_
        cases twin with
        | error defect => simp [Except.toOption] at isFound
        | ok twin =>
          obtain rfl : twin = got := by simpa [Except.toOption] using isFound
          exact ans twin rfl
      · exact unknown hu.holds
    · exact unknown hu.holds
  · exact unknown h

theorem goes_lookup (sc name : String) (h : P w) : Goes (Work.Upholds P Held) (WorkM.lookup sc name)
    (fun ans u => ∀ comp, ans = .found comp → ∃ sym ∈ u.symbols.symbols, sym.component = comp) w := by
  refine Goes.of_ok (a := (w.symbols.lookup sc name).1)
    (t := { w with symbols := (w.symbols.lookup sc name).2 }) rfl
    ⟨inv.lookup sc name h, fun _ held => held⟩ fun comp isFound => ?_
  have prompt : (w.symbols.lookup sc name).1 ≠ .notYet := by simp [isFound]
  rw [SymbolTable.lookup_snd_of_prompt prompt]
  exact SymbolTable.lookup_found isFound

theorem goes_lookupTypeSymbol (sc name : String) (h : P w) :
    Goes (Work.Upholds P Held) (lookupTypeSymbol sc name)
      (fun ans u => ∀ type, ans = .type type → Known u.pool type) w := by
  refine Goes.bind (inv.goes_lookup sc name h) fun ans u hu found => ?_
  split
  · refine goes_pure hu.holds ?_
    rintro _ ⟨rfl⟩
    obtain ⟨sym, mem, eq⟩ := found _ rfl
    exact inv.symbol hu.holds mem eq
  · exact goes_pure hu.holds (by simp)
  · exact goes_pure hu.holds (by simp)
  · exact goes_pure hu.holds (by simp)

theorem goes_lookupType (sc : String) (id : NodeId) (names : List String) (h : P w) :
    Goes (Work.Upholds P Held) (lookupType sc id names)
      (fun ans u => ∀ type, ans = .type type → Known u.pool type) w := by
  unfold lookupType
  split
  · refine goes_tree ?_
    split
    · refine Goes.bind (inv.goes_typedefType _ h) fun type u hu known => ?_
      split
      · refine goes_pure hu.holds ?_
        rintro _ ⟨rfl⟩
        exact known _ rfl
      · exact goes_pure hu.holds (by simp)
    · split
      · refine (inv.named _ h).map.answering fun ans u _ hf => ?_
        obtain ⟨type, rfl, known⟩ := hf
        rintro _ ⟨rfl⟩
        exact known
      · exact inv.goes_lookupTypeSymbol _ _ h
  · exact inv.goes_lookupTypeSymbol _ _ h

theorem goes_noteType (id : NodeId) (h : P w) (held : Held w.pool type) :
    Goes (Work.Upholds P Held)
      (modifyFacts id fun facts => { facts with type := some type }) (fun _ _ => True) w :=
  goes_unpooled rfl (inv.type id h held) rfl

theorem goes_settleType (id : NodeId) (h : P w) (known : Known w.pool type) :
    Goes (Work.Upholds P Held) (settleType id type) (fun _ _ => True) w := by
  have held := inv.known known
  refine goes_facts ?_
  split
  · exact inv.goes_noteType id h held
  · refine Goes.bind (goes_readPool h) fun entry u hu eq => ?_
    subst eq
    split
    · exact inv.fill _ h known
    · exact inv.goes_noteType id h held

theorem goes_deferType (id : NodeId) (name : String) (h : P w) :
    Goes (Work.Upholds P Held) (deferType id name) (fun _ _ => True) w := by
  refine goes_facts ?_
  split
  · exact Goes.bind (inv.placeholder name h) fun hole u hu held => inv.goes_noteType id hu.holds held
  · exact goes_pure h trivial

theorem upheld_setStage (id : NodeId) (stage : Stage) : Upheld P Held (setStage id stage) :=
  fun _ h => goes_unpooled rfl (inv.stage id stage h) rfl

theorem upheld_reportAt (code : Code) (id : NodeId) (args : List String) :
    Upheld P Held (reportAt code id args) :=
  fun _ h => goes_unpooled rfl (inv.report _ h) rfl

theorem upheld_resolveTypeName (sc : String) (id : NodeId) :
    Upheld P Held (resolveTypeName sc id) := by
  intro w h
  refine goes_tree ?_
  split
  · exact upheld_throw _ h
  · split
    · exact upheld_throw _ h
    · exact Goes.bind (inv.intern h (by simp [Constant.children, TypeConstant.children]))
        fun type u hu held => Goes.bind (inv.goes_noteType id hu.holds held) fun _ _ hf _ =>
        goes_pure hf.holds trivial
  · refine Goes.bind (inv.goes_lookupType sc id _ h) fun ans u hu known => ?_
    split
    · exact Goes.bind (inv.goes_settleType id hu.holds (known _ rfl)) fun _ _ hf _ =>
        goes_pure hf.holds trivial
    · exact upheld_bind (inv.upheld_reportAt _ _ _) (fun _ => upheld_bind (inv.upheld_setStage _ _) fun _ =>
        upheld_pure _) hu.holds
    · exact Goes.bind (inv.goes_deferType id _ hu.holds) fun _ _ hf _ =>
        goes_pure hf.holds trivial
    · exact Goes.bind (inv.goes_deferType id _ hu.holds) fun _ _ hf _ =>
        goes_pure hf.holds trivial
  · exact goes_pure h trivial

theorem goes_lookupSymbol (sc name : String) (h : P w) :
    Goes (Work.Upholds P Held) (lookupSymbol sc name)
      (fun ans u => ∀ binding, ans = .bound binding → u.Finds binding) w := by
  refine Goes.bind (inv.goes_lookup sc name h) fun ans u hu found => ?_
  split
  · rename_i comp
    refine goes_pure hu.holds ?_
    rintro _ ⟨rfl⟩ type v isConstant
    cases comp with
    | constant ty val =>
      cases isConstant
      exact found _ rfl
    | type ty => simp [Component.binding] at isConstant
    | space x => simp [Component.binding] at isConstant
  · exact goes_pure hu.holds (by simp)
  · exact goes_pure hu.holds (by simp)

theorem goes_lookupName (sc : String) (id : NodeId) (name : String) (h : P w) :
    Goes (Work.Upholds P Held) (lookupName sc id name)
      (fun ans u => ∀ binding, ans = .bound binding → u.Finds binding) w := by
  have inUnit : Goes (Work.Upholds P Held) (lookupInUnit id name)
      (fun ans u => ∀ binding, ans = some (.bound binding) → u.Finds binding)
      w := by
    refine goes_tree ?_
    split
    · refine goes_pure h ?_
      rintro _ ⟨rfl⟩ type v ⟨⟩
    · split
      · refine Goes.bind (inv.goes_typedefType _ h) fun type u hu _ => ?_
        split
        · refine goes_pure hu.holds ?_
          rintro _ ⟨rfl⟩ type v ⟨⟩
        · exact goes_pure hu.holds (by simp)
      · split
        · refine Goes.bind (inv.named _ h) fun type u hu _ =>
            goes_pure hu.holds ?_
          rintro _ ⟨rfl⟩ type v ⟨⟩
        · exact goes_pure h (by simp)
  unfold lookupName
  split
  · exact inv.goes_lookupSymbol _ _ h
  · refine Goes.bind inUnit fun ans u hu found => ?_
    split
    · refine goes_pure hu.holds ?_
      rintro binding rfl
      exact found binding rfl
    · exact inv.goes_lookupSymbol _ _ hu.holds

theorem upheld_resolveNode (sc : String) (id : NodeId) :
    Upheld P Held (resolveNode sc id) := by
  intro w h
  refine goes_tree ?_
  split
  · exact inv.upheld_resolveTypeName sc id h
  · refine Goes.bind (inv.goes_lookupName sc id _ h) fun ans u hu found => ?_
    split
    · exact Goes.bind (goes_unpooled rfl (inv.bind id hu.holds (found _ rfl)) rfl) fun _ _ hf _ =>
        goes_pure hf.holds trivial
    · exact goes_pure hu.holds trivial
    · exact goes_pure hu.holds trivial
  · exact goes_pure h trivial

theorem upheld_visit (sc : String) (id : NodeId) :
    Upheld P Held (visit sc id) := by
  refine upheld_bind (inv.upheld_setStage _ _) fun _ => upheld_bind (inv.upheld_resolveNode _ _) fun prog =>
    upheld_bind (upheld_stage _) fun stage => ?_
  dsimp only
  split
  · exact upheld_bind (inv.upheld_setStage _ _) fun _ => upheld_pure _
  · exact upheld_pure _

theorem always_visitAll (sc : String) (ids : List NodeId) : Always P (visitAll sc ids) :=
  Resolution.always_visitAll (fun sc id => (inv.upheld_visit sc id).always) sc ids

theorem always_giveUp (lefts : List NodeId) : Always P (giveUp lefts) :=
  Resolution.always_giveUp (fun id => (inv.upheld_setStage id .failed).always)
    (fun code id args => (inv.upheld_reportAt code id args).always) lefts

end TypingInvariant

end TreeCompiler
