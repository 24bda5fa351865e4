import TreeCompiler.Proofs.DecidedNames
import TreeCompiler.Proofs.GivenUpNames
import TreeCompiler.Proofs.NotedTypes
import TreeCompiler.Proofs.Placeholders

/-!
# Sweeps that get nowhere

A sweep that puts off all it visits has changed nothing but the pool, where it interned constants.
Made again it finds these constants, gets the same answers and changes nothing at all.
-/

namespace TreeCompiler

open Step

namespace Pool

variable {p later : Pool} {k : Constant} {id : ConstId}

/-- A constant that was interned is found in every larger pool. -/
theorem intern_of_extends (hg : later.Extends (p.intern k).2) :
    later.intern k = ((p.intern k).1, later) :=
  intern_of_value (hg.holds _ _ (Extends.entry?_intern p k))

namespace Complete

variable {part : ConstId}

theorem of_parts {entry : Entry} (isEntry : p.entry? id = some entry)
    (parts : ∀ part ∈ entry.parts, p.Complete part) : p.Complete id := by
  intro part reaches
  rcases reaches.cases_head with rfl | ⟨next, ⟨other, hasOther, mem⟩, rest⟩
  · simp [isEntry]
  · obtain rfl : entry = other := by simpa [isEntry] using hasOther
    exact parts next mem part rest

/-- What was complete stays so if it leads only to what was. -/
theorem keep (complete : p.Complete id)
    (there : ∀ part, p.Complete part → (later.entry? part).isSome)
    (leads : ∀ id part, p.Complete id → later.Refers id part → p.Complete part) :
    later.Complete id := by
  intro part reaches
  refine there part ?_
  induction reaches with
  | refl => exact complete
  | tail _ refers ih => exact leads _ _ ih refers

theorem entry_eq (complete : p.Complete id) (hg : later.Extends p) :
    later.entry? id = p.entry? id := by
  obtain ⟨entry, isEntry⟩ := Option.isSome_iff_exists.mp (complete id .refl)
  rw [isEntry]
  exact hg.holds _ _ isEntry

theorem mono (complete : p.Complete id) (hg : later.Extends p) : later.Complete id := by
  refine complete.keep (fun part there => ?_) fun id part there ⟨entry, isEntry, mem⟩ => ?_
  · rw [there.entry_eq hg]
    exact there part .refl
  · exact there.part ⟨entry, (there.entry_eq hg).symm.trans isEntry, mem⟩

theorem setTarget {hole : ConstId} {name : String} (complete : p.Complete id)
    (isHole : p.entry? hole = some (.placeholder name none)) (target : p.Complete part) :
    (p.setTarget hole part).Complete id := by
  have entries := entry?_setTarget isHole part
  refine complete.keep (fun other there => ?_) fun id other there ⟨entry, isEntry, mem⟩ => ?_
  · rw [entries]
    split
    · rfl
    · exact there other .refl
  · rw [entries] at isEntry
    split at isEntry
    · cases isEntry
      obtain rfl : other = part := by simpa [Entry.parts] using mem
      exact target
    · exact there.part ⟨entry, isEntry, mem⟩

end Complete

namespace Expands

variable {through : Bool} {ex : Expansion}

/-- What can be written out is in the pool with everything it is built from. -/
theorem complete (hx : p.Expands through id ex) : p.Complete id := by
  induction hx with
  | hole isHole => exact .of_parts isHole (by simp [Entry.parts])
  | link _ isFilled _ ih => exact .of_parts isFilled (by simpa [Entry.parts] using ih)
  | @node id k ps isValue arity _ ih =>
    refine .of_parts isValue fun part mem => ?_
    obtain ⟨i, rfl⟩ := List.mem_iff_get.mp mem
    exact ih i _ _ (List.getElem?_eq_getElem i.isLt) (List.getElem?_eq_getElem (arity ▸ i.isLt))

/-- A larger pool writes out what was complete as before. -/
theorem of_extends (hx : later.Expands through id ex) (hg : later.Extends p)
    (complete : p.Complete id) : p.Expands through id ex := by
  induction hx with
  | hole isHole => exact .hole ((complete.entry_eq hg).symm.trans isHole)
  | link allowed isFilled _ ih =>
    have filled := (complete.entry_eq hg).symm.trans isFilled
    exact .link allowed filled (ih (complete.part ⟨_, filled, by simp [Entry.parts]⟩))
  | node isValue arity _ ih =>
    have value := (complete.entry_eq hg).symm.trans isValue
    exact .node value arity fun i c part isChild isPart =>
      ih i c part isChild isPart (complete.part ⟨_, value, List.mem_of_getElem? isChild⟩)

end Expands

/-- What is complete depends on an open placeholder in a larger pool if it does now. -/
theorem Complete.isResolved_of_extends (complete : p.Complete id) (hg : later.Extends p)
    (res : later.isResolved id = .ok true) : p.isResolved id = .ok true := by
  obtain ⟨term, means⟩ := means_of_isResolved res
  obtain ⟨ans, eq, resolved⟩ := (means.expands.of_extends hg complete).isResolved
  rw [eq, resolved.mpr fun _ => not_leaves_expansion term]

end Pool

/-- The pool holds every type that is noted in the tree or that the symbol table names, with
everything it is built from. The types may contain themselves or depend on open placeholders. -/
structure Work.Supplied (w : Work) : Prop where
  noted : ∀ {id type}, (w.tree.facts id).type = some type → w.pool.Complete type
  symbol : ∀ {sym type}, sym ∈ w.symbols.symbols → sym.component = .type type → w.pool.Complete type

namespace Work.Supplied

open WorkM Pool

variable {w : Work} {type : ConstId}

theorem upholds_withPool {p : Pool} (h : w.Supplied)
    (keeps : ∀ id, w.pool.Complete id → p.Complete id) :
    w.Upholds Supplied Complete (w.withPool p) :=
  ⟨⟨fun isNoted => keeps _ (h.noted isNoted), fun mem eq => keeps _ (h.symbol mem eq)⟩, keeps⟩

theorem goes_onPool {step : PoolM ConstId} {found : ConstId} {p : Pool} (h : w.Supplied)
    (ran : step w.pool = .ok found p) (hg : p.Extends w.pool) (complete : p.Complete found) :
    Goes (Work.Upholds Supplied Complete) (onPool step) (fun id u => u.pool.Complete id) w :=
  Goes.of_ok (onPool_ok.mpr ⟨p, ran, rfl⟩) (h.upholds_withPool fun _ there => there.mono hg) complete

theorem modifyFacts (h : w.Supplied) (id : NodeId) {f : Facts → Facts}
    (keeps : ∀ facts : Facts, (∀ type, facts.type = some type → w.pool.Complete type) →
      ∀ type, (f facts).type = some type → w.pool.Complete type) :
    (w.withTree (w.tree.modifyFacts id f)).Supplied := by
  refine ⟨fun {other type} isNoted => ?_, h.symbol⟩
  rcases w.tree.facts_modify_cases id other f with eq | ⟨-, changed⟩
  · exact h.noted (eq ▸ isNoted)
  · exact keeps _ (fun _ => h.noted) _ (changed ▸ isNoted)

theorem goes_intern {k : Constant} (h : w.Supplied) (parts : ∀ c ∈ k.children, w.pool.Complete c) :
    Goes (Work.Upholds Supplied Complete) (onPool (.intern k))
    (fun id u => u.pool.Complete id) w := by
  have grown := Extends.intern w.pool k
  exact h.goes_onPool rfl grown (.of_parts (Extends.entry?_intern w.pool k) fun c mem =>
    (parts c mem).mono grown)

theorem goes_fill (hole : ConstId) (h : w.Supplied) :
    Goes (Work.Upholds Supplied Complete) (onPool (.fill hole type)) (fun _ _ => True) w := by
  refine Resolution.goes_of_pool (S := fun p q => ∀ id, p.Complete id → q.Complete id)
    (Q := fun _ _ => True) ⟨?_, fun _ _ _ => trivial⟩ fun _ => h.upholds_withPool
  rcases Pool.fill_cases (P := fun p => p.Extends w.pool)
      (fun id p hg => PoolM.grows_canonical id _ p hg) (.refl _) hole type with
    grown | ⟨name, twin, mid, isHole, ran, -, grown, eq⟩
  · exact fun id there => there.mono grown
  · obtain ⟨ex, -, hx⟩ := expands_of_canonical ran
    rw [eq]
    exact fun id there => (there.mono grown).setTarget (grown.holds _ _ isHole) hx.complete

/-- Resolution notes types that the pool holds whole. -/
theorem typing : TypingInvariant Supplied Complete Complete where
  known complete := complete
  noted h isNoted := h.noted isNoted
  symbol h mem eq := h.symbol mem eq
  lookup sc name h := by
    refine ⟨h.noted, fun mem eq => ?_⟩
    obtain ⟨old, isOld, same⟩ := SymbolTable.component_lookup mem
    exact h.symbol isOld (same.trans eq)
  intern := goes_intern
  named name h := h.goes_intern (k := .type (.named name)) (by simp [Constant.children, TypeConstant.children])
  canonical h res := by
    obtain ⟨term, means⟩ := means_of_isResolved res
    obtain ⟨twin, p, ran, grown, spells⟩ := means.canonical
    exact h.goes_onPool ran grown spells.means.expands.complete
  placeholder {w} name h := by
    have isOpen : Pool.entry? (w.pool.addPlaceholder name).2 ⟨w.pool.size⟩ =
        some (.placeholder name none) :=
      (entry?_of_push rfl _).trans (if_pos rfl)
    exact h.goes_onPool rfl (.addPlaceholder _ name) (.of_parts isOpen (by simp [Entry.parts]))
  fill hole h _ := h.goes_fill hole
  type id h complete := h.modifyFacts id fun _ _ _ isNoted => by
    cases isNoted
    exact complete
  bind id h _ := h.modifyFacts id fun _ old => old
  stage id _ h := h.modifyFacts id fun _ old => old
  report _ h := ⟨h.noted, h.symbol⟩

end Work.Supplied

/-- A run changed nothing but the pool, and from any larger one it would end the same and change
nothing. -/
structure WorkM.Repeats {α : Type} (step : WorkM α) (w : Work) (a : α) (t : Work) : Prop where
  same : t = w.withPool t.pool
  grown : t.pool.Extends w.pool
  again : ∀ p, p.Extends t.pool → step (w.withPool p) = .ok a (w.withPool p)

namespace WorkM

variable {α β : Type} {step : WorkM α} {next : α → WorkM β} {w mid t : Work} {a : α} {b : β}

namespace Repeats

theorem still (ran : ∀ p, p.Extends w.pool → step (w.withPool p) = .ok a (w.withPool p)) :
    Repeats step w a w := ⟨rfl, .refl _, ran⟩

theorem of_still (ran : step w = .ok a t)
    (again : ∀ p, p.Extends w.pool → step (w.withPool p) = .ok a (w.withPool p)) :
    Repeats step w a t := by
  cases ran.symm.trans (again w.pool (.refl _))
  exact .still again

theorem pure (a : α) : Repeats (Pure.pure a) w a w := .still fun _ _ => rfl

theorem bind (fst : Repeats step w a mid) (rest : Repeats (next a) mid b t) :
    Repeats (step >>= next) w b t where
  same := rest.same.trans (by rw [fst.same]; rfl)
  grown := rest.grown.trans fst.grown
  again p hg := by
    have again := rest.again p hg
    rw [fst.same] at again
    exact (bind_of_ok (fst.again p (hg.trans rest.grown))).trans again

theorem tree {next : Tree → WorkM β} (rest : Repeats (next w.tree) w b t) :
    Repeats (WorkM.tree >>= next) w b t :=
  bind (.still fun _ _ => rfl) rest

end Repeats

theorem attempt_bind : attempt (step >>= next) = attempt step >>= fun
    | .ok a => attempt (next a)
    | .error defect => pure (.error defect) := by
  funext w
  simp only [attempt, Bind.bind, EStateM.bind]
  cases step w <;> rfl

/-- A step whose runs can be repeated, wherever they end or stop. -/
def Repeatable {α : Type} (step : WorkM α) : Prop :=
  ∀ w, ∃ ans t, attempt step w = .ok ans t ∧ Repeats (attempt step) w ans t

theorem internLogic_repeatable : InternLogic @Repeatable where
  pure a w := ⟨.ok a, w, rfl, .still fun _ _ => rfl⟩
  throw defect w := ⟨.error defect, w, rfl, .still fun _ _ => rfl⟩
  tree w := ⟨.ok w.tree, w, rfl, .still fun _ _ => rfl⟩
  intern k w := by
    refine ⟨.ok (w.pool.intern k).1, w.withPool (w.pool.intern k).2, rfl, rfl, .intern .., fun p hg => ?_⟩
    have hf : PoolM.intern k p = .ok (w.pool.intern k).1 p :=
      modifyGet_ok.mpr (Pool.intern_of_extends hg)
    have ran : onPool (.intern k) (w.withPool p) = .ok (w.pool.intern k).1 (w.withPool p) :=
      onPool_ok.mpr ⟨p, hf, rfl⟩
    simp only [attempt, ran]
  bind {_ _ step next} fst rest w := by
    rw [attempt_bind]
    obtain ⟨ans, mid, ran, repeats⟩ := fst w
    cases ans with
    | error defect =>
      exact ⟨.error defect, mid, (bind_of_ok ran).trans rfl, repeats.bind (.pure _)⟩
    | ok a =>
      obtain ⟨ans, t, ranRest, repeatsRest⟩ := rest a mid
      exact ⟨ans, t, (bind_of_ok ran).trans ranRest, repeats.bind repeatsRest⟩

end WorkM

namespace Resolution

open WorkM

variable {sc name : String} {id : NodeId} {w t : Work}

/-- The type behind a type name is not known in a larger pool either. -/
theorem repeats_typedefType {typedef : NodeId} (h : w.Supplied)
    (ran : typedefType typedef w = .ok none t) : Repeats (typedefType typedef) w none t := by
  replace ran := rest_ok ran rfl
  refine .tree ?_
  cases hf : w.tree.stmt? typedef with
  | none =>
    rw [hf] at ran
    cases ran
    exact .pure _
  | some stmt =>
    rw [hf] at ran
    cases stmt with
    | typedef title ty =>
      obtain ⟨ans, mid, hl, ran⟩ := bind_ok.mp ran
      obtain ⟨_, _, eq, repeats⟩ := internLogic_repeatable.currentType ty w
      cases hl.symm.trans eq
      refine repeats.bind ?_
      obtain ⟨-, complete⟩ := goes_attempt (Work.Supplied.typing.goes_currentType ty h)
      match ans with
      | .error _ | .ok none =>
        cases ran
        exact .pure _
      | .ok (some current) =>
        have unresolved : mid.pool.isResolved current ≠ .ok true := by
          intro res
          replace ran := rest_ok ran rfl
          rw [res] at ran
          obtain ⟨term, means⟩ := Pool.means_of_isResolved res
          obtain ⟨twin, p, canonical, -, -⟩ := means.canonical
          have hf : attempt (onPool (.canonical current)) mid = .ok (.ok twin) (mid.withPool p) := by
            simp [attempt, onPool_ok.mpr ⟨p, canonical, rfl⟩]
          have hk := rest_ok ran hf
          simp [Except.toOption] at hk
        refine .of_still ran fun p hg => (bind_of_ok rfl).trans ?_
        cases again : (mid.withPool p).pool.isResolved current with
        | error error => rfl
        | ok res =>
          cases res with
          | false => rfl
          | true =>
            exact absurd ((complete _ _ hl _ rfl _ rfl).isResolved_of_extends hg again) unresolved
    | _ =>
      cases ran
      exact .pure _

/-- An answer of the symbol table that is not held back is given again. -/
theorem repeats_symbol {α : Type} {next : Lookup → WorkM α} {a b : α}
    (hp : ∀ ans, ∃ b, next ans = pure b) (held : next .notYet = pure b) (ne : b ≠ a)
    (ran : (lookup sc name >>= next) w = .ok a t) : Repeats (lookup sc name >>= next) w a t := by
  obtain ⟨ans, mid, hl, ran⟩ := bind_ok.mp ran
  obtain ⟨x, isPure⟩ := hp ans
  obtain ⟨answers, changes⟩ := Prod.ext_iff.mp (modifyGet_ok.mp hl)
  have prompt : (w.symbols.lookup sc name).1 ≠ .notYet := by
    rintro notYet
    obtain rfl : .notYet = ans := notYet.symm.trans answers
    rw [held] at ran
    exact ne (pure_ok.mp ran).1
  have table := SymbolTable.lookup_snd_of_prompt prompt
  have here : ∀ now : Work, now.symbols = w.symbols → lookup sc name now = .ok ans now := by
    intro now eq
    refine modifyGet_ok.mpr (Prod.ext ?_ ?_)
    · rw [← answers]
      exact congrArg (fun symbols => (SymbolTable.lookup symbols sc name).1) eq
    · have kept : (now.symbols.lookup sc name).2 = now.symbols := by rw [eq, table]
      exact congrArg (fun symbols => { now with symbols }) kept
  rw [isPure] at ran
  cases hl.symm.trans (here w rfl)
  cases ran
  refine Repeats.bind (.still fun p _ => here _ rfl) ?_
  rw [isPure]
  exact .pure _

theorem repeats_lookupType {names : List String} (h : w.Supplied)
    (ran : lookupType sc id names w = .ok .unknown t) :
    Repeats (lookupType sc id names) w .unknown t := by
  have ofSymbol : ∀ {name}, lookupTypeSymbol sc name w = .ok .unknown t →
      Repeats (lookupTypeSymbol sc name) w .unknown t := by
    refine repeats_symbol (fun ans => ?_) rfl (by simp)
    cases ans with
    | found comp => cases comp <;> exact ⟨_, rfl⟩
    | _ => exact ⟨_, rfl⟩
  match names with
  | [] | _ :: _ :: _ => exact ofSymbol ran
  | [name] =>
    replace ran := rest_ok ran rfl
    refine .tree ?_
    cases hv : w.tree.findTypedef id name with
    | some typedef =>
      rw [hv] at ran
      obtain ⟨ty, mid, hl, ran⟩ := bind_ok.mp ran
      cases ty with
      | some ty => simp at ran
      | none =>
        cases ran
        exact (repeats_typedefType h hl).bind (.pure _)
    | none =>
      rw [hv] at ran
      by_cases builtin : builtinTypes.contains name = true
      · simp only [builtin, if_true] at ran
        obtain ⟨ty, -, ht⟩ := map_ok.mp ran
        simp at ht
      · simp only [builtin] at ran ⊢
        exact ofSymbol ran

theorem repeats_lookupName (h : w.Supplied) (ran : lookupName sc id name w = .ok .unknown t) :
    Repeats (lookupName sc id name) w .unknown t := by
  have ofSymbol : ∀ {w : Work}, lookupSymbol sc name w = .ok .unknown t →
      Repeats (lookupSymbol sc name) w .unknown t :=
    repeats_symbol (fun ans => by cases ans <;> exact ⟨_, rfl⟩) rfl (by simp)
  unfold lookupName at ran ⊢
  by_cases dotted : Text.hasDot name = true
  · simp only [dotted, if_true] at ran ⊢
    exact ofSymbol ran
  · simp only [dotted] at ran ⊢
    obtain ⟨ans, mid, hl, ran⟩ := bind_ok.mp ran
    have unit : Repeats (lookupInUnit id name) w ans mid := by
      replace hl := rest_ok hl rfl
      refine .tree ?_
      cases isLocal : w.tree.findLocal id name with
      | some decl =>
        rw [isLocal] at hl
        cases hl
        simp at ran
      | none =>
        rw [isLocal] at hl
        cases hv : w.tree.findTypedef id name with
        | some typedef =>
          simp only [hv] at hl ⊢
          obtain ⟨ty, between, hf, hl⟩ := bind_ok.mp hl
          cases ty with
          | some ty =>
            cases hl
            simp at ran
          | none =>
            cases hl
            exact (repeats_typedefType h hf).bind (.pure _)
        | none =>
          simp only [hv] at hl ⊢
          by_cases builtin : builtinTypes.contains name = true
          · simp only [builtin, if_true] at hl
            obtain ⟨ty, -, rfl⟩ := bind_pure_ok.mp hl
            simp at ran
          · simp only [builtin] at hl ⊢
            cases hl
            exact .pure _
    refine unit.bind ?_
    cases ans with
    | none => exact ofSymbol ran
    | some ans =>
      cases ran
      exact .pure _

theorem repeats_resolveNode (h : w.Supplied) (idle : w.Idle id)
    (ran : resolveNode sc id w = .ok .deferred t) :
    Repeats (resolveNode sc id) w .deferred t := by
  replace ran := rest_ok ran rfl
  refine .tree ?_
  have asks := isDeferrable_of_resolveNode ((bind_of_ok rfl).trans ran) (by simp)
  unfold Tree.isDeferrable at asks
  split at asks
  · rename_i names ps hf
    have ht : w.tree.type? id = some (.named names ps) := by simp [Tree.type?, hf, Form.type?]
    simp only [hf] at ran ⊢
    replace ran := rest_ok ran rfl
    refine .tree ?_
    simp only [ht] at ran ⊢
    obtain ⟨ans, mid, hl, ran⟩ := bind_ok.mp ran
    cases ans with
    | unknown =>
      have repeats := repeats_lookupType h hl
      refine repeats.bind ?_
      have hn : (mid.tree.facts id).type.isNone = false := by
        rw [repeats.same]
        simpa using idle.noted names ps ht
      have idles : ∀ p, deferType id (Text.joinDots names) (mid.withPool p) = .ok () (mid.withPool p) := by
        intro p
        refine (bind_of_ok rfl).trans ?_
        split
        · rename_i isNone
          exact absurd isNone (Bool.eq_false_iff.mp hn)
        · rfl
      obtain ⟨u, last, deferred, ran⟩ := bind_ok.mp ran
      cases (idles mid.pool).symm.trans deferred
      cases ran
      exact .bind (.still fun p _ => idles p) (.pure _)
    | type | notAType | waiting => simp [bind_ok, map_ok] at ran
  · rename_i name hf
    simp only [hf] at ran ⊢
    obtain ⟨ans, mid, hl, ran⟩ := bind_ok.mp ran
    cases ans with
    | unknown =>
      cases ran
      exact (repeats_lookupName h hl).bind (.pure _)
    | bound | waiting => simp [map_ok] at ran
  · simp at asks

theorem repeats_visit (h : w.Supplied) (idle : w.Idle id)
    (ran : visit sc id w = .ok .deferred t) : Repeats (visit sc id) w .deferred t := by
  have stays : ∀ p, setStage id .resolving (w.withPool p) = .ok () (w.withPool p) := by
    intro p
    refine setStage_ok.mpr ?_
    rw [show (w.withPool p).tree = w.tree from rfl, Tree.setStage_self idle.stage]
    rfl
  replace ran := rest_ok ran (stays w.pool)
  refine Repeats.bind (.still fun p _ => stays p) ?_
  obtain ⟨prog, mid, tried, ran⟩ := bind_ok.mp ran
  replace ran := rest_ok ran rfl
  split at ran
  · rename_i isDone
    have isDeferred := (bind_pure_ok.mp ran).choose_spec.2
    simp [isDone.1] at isDeferred
  · cases ran
    exact (repeats_resolveNode h idle tried).bind (.pure _)

/-- A node that a sweep has visited is put off or done with. -/
def Rests (w : Work) (id : NodeId) : Prop := w.Idle id ∨ isSettled w.tree id = true

variable {ids : List NodeId} {rest : Rest}

/-- A sweep that puts off all nodes does so again. -/
theorem repeats_visitAll (h : w.Supplied) (rests : ∀ id ∈ ids, Rests w id)
    (ran : visitAll sc ids w = .ok rest t) (all : rest.deferred.length = ids.length)
    (prompt : rest.waiting = false) :
    rest.deferred = ids ∧ (∀ id ∈ ids, w.Idle id) ∧ Repeats (visitAll sc ids) w rest t := by
  induction ids generalizing w rest with
  | nil =>
    cases ran
    exact ⟨rfl, by simp, .pure _⟩
  | cons id ids ih =>
    have short : ∀ {now : Work} {others}, visitAll sc ids now = .ok others t →
        others.deferred.length ≤ ids.length := fun swept =>
      (deferred_sublist (.refl _) swept).length_le.trans (List.length_filter_le _ _)
    replace ran := rest_ok ran rfl
    split at ran
    -- a node that is passed over leaves the sweep short
    · have less := short ran
      rw [List.length_cons] at all
      omega
    · rename_i unsettled
      have idle := (rests id (by simp)).resolve_right unsettled
      obtain ⟨prog, mid, seen, ran⟩ := bind_ok.mp ran
      replace ran := rest_ok ran rfl
      have deferred : ∀ {others : Rest}, others.deferred.length ≤ ids.length →
          (others.after id prog).deferred.length = ids.length + 1 →
          (others.after id prog).waiting = false →
          prog = .deferred ∧ others.deferred.length = ids.length ∧ others.waiting = false := by
        intro others less all prompt
        cases prog with
        | done =>
          rw [Rest.after] at all
          omega
        | deferred => exact ⟨rfl, by simpa [Rest.after] using all, prompt⟩
        | waiting => simp [Rest.after] at prompt
      have whole : ∀ {last}, prog = .deferred →
          Repeats (if mid.sink.abortDesired then pure (({} : Rest).after id prog) else do
            pure ((← visitAll sc ids).after id prog)) mid rest last →
          Repeats (visitAll sc (id :: ids)) w rest last := by
        rintro last rfl repeats
        refine .tree ?_
        rw [if_neg unsettled]
        exact (repeats_visit h idle seen).bind ⟨repeats.same, repeats.grown, repeats.again⟩
      split at ran
      · rename_i aborts
        cases ran
        obtain ⟨isDeferred, none, -⟩ := deferred (Nat.zero_le _) all prompt
        obtain rfl : ids = [] := List.eq_nil_of_length_eq_zero none.symm
        refine ⟨by simp [isDeferred, Rest.after], by simpa using idle, whole isDeferred ?_⟩
        rw [if_pos aborts]
        exact .pure _
      · rename_i goesOn
        obtain ⟨others, swept, rfl⟩ := bind_pure_ok.mp ran
        obtain ⟨isDeferred, allOthers, promptOthers⟩ := deferred (short swept) all prompt
        subst isDeferred
        have eq := (repeats_visit h idle seen).same
        have alike : ∀ {x}, w.Idle x ↔ mid.Idle x := by
          rw [eq]
          exact ⟨fun idle => ⟨idle.stage, idle.noted⟩, fun idle => ⟨idle.stage, idle.noted⟩⟩
        have restsMid : ∀ x ∈ ids, Rests mid x := fun x mem =>
          (rests x (by simp [mem])).imp alike.mp fun hs => by rwa [eq]
        obtain ⟨isAll, idles, repeats⟩ := ih ((Work.Supplied.typing.upheld_visit sc id).keeps w _ mid h seen) restsMid
          swept allOthers promptOthers
        refine ⟨by simp [Rest.after, isAll], fun x mem => ?_, whole rfl ?_⟩
        · rcases List.mem_cons.mp mem with rfl | mem
          · exact idle
          · exact alike.mpr (idles x mem)
        · rw [if_neg goesOn]
          exact repeats.bind (.pure _)

theorem rests_visit {prog : Progress} (hp : w.tree.Has id)
    (ran : visit sc id w = .ok prog t) {x : NodeId} (rests : x = id ∨ Rests w x) :
    Rests t x := by
  obtain ⟨ends, ans⟩ := @goes_visit_touches sc id w hp
  rw [ran] at ends
  have touches : w.Touches id t := ends
  by_cases eq : x = id
  · subst eq
    exact (ans prog t ran).symm.imp (fun left => left.2) fun done => done.1
  · have facts := touches.others x eq
    refine (rests.resolve_left eq).imp (fun idle => ⟨?_, fun names ps ht => ?_⟩) fun hs => ?_
    · rw [Tree.stage, facts]
      exact idle.stage
    · rw [facts]
      exact idle.noted names ps (by rwa [touches.shape.type?] at ht)
    · simpa only [isSettled, Tree.stage, facts, touches.shape.completable] using hs

theorem rests_visitAll (hp : ∀ id ∈ ids, w.tree.Has id)
    (ran : visitAll sc ids w = .ok rest t) {x : NodeId}
    (rests : x ∈ rest.deferred ∨ Rests w x) : Rests t x := by
  induction ids generalizing w rest with
  | nil =>
    cases ran
    simpa using rests
  | cons id ids ih =>
    replace ran := rest_ok ran rfl
    split at ran
    · exact ih (fun id mem => hp id (by simp [mem])) ran rests
    · obtain ⟨prog, mid, seen, ran⟩ := bind_ok.mp ran
      have here := @rests_visit sc id w mid prog (hp id (by simp)) seen
      replace ran := rest_ok ran rfl
      split at ran
      · cases ran
        refine here (rests.imp_left fun mem => ?_)
        simpa using eq_or_mem_of_deferred mem
      · obtain ⟨others, swept, rfl⟩ := bind_pure_ok.mp ran
        have shape := ((resolutionInvariant_shape w.tree).always_visit sc id).keeps w _ mid (.refl _) seen
        refine ih (fun id mem => (shape.has id).mpr (hp id (by simp [mem]))) swept ?_
        rcases rests with mem | rests
        · exact (eq_or_mem_of_deferred mem).symm.imp_right fun eq => here (.inl eq)
        · exact .inr (here (.inr rests))

end Resolution

namespace Course

variable {c t : Course} {waiting : Bool} {ids : List NodeId}

/-- A number of further sweeps over what is pending. -/
def sweepAgain : Nat → CourseM Unit
  | 0 => pure ()
  | count + 1 => do
    let _ ← sweep (← get).pending
    sweepAgain count

/-- What is pending is there and was visited. -/
structure Resting (c : Course) : Prop where
  supplied : c.work.Supplied
  present : ∀ id ∈ c.pending, c.work.tree.Has id
  rests : ∀ id ∈ c.pending, Resolution.Rests c.work id

theorem resting_of_sweep (h : c.work.Supplied) (hp : ∀ id ∈ ids, c.work.tree.Has id)
    (swept : sweep ids c = .ok waiting t) : t.Resting := by
  obtain ⟨rest, w, ran, -, rfl⟩ := sweep_ok.mp swept
  have shape := ((Resolution.resolutionInvariant_shape c.work.tree).always_visitAll _ _).keeps _ _ w
    (.refl _) ran
  have hi := (Resolution.deferred_sublist (.refl _) ran).trans List.filter_sublist
  exact ⟨(Work.Supplied.typing.always_visitAll _ _).keeps _ _ w h ran,
    fun id mem => (shape.has id).mpr (hp id (hi.subset mem)),
    fun id mem => Resolution.rests_visitAll hp ran (.inl mem)⟩

/-- After a sweep that puts off all that was pending, further ones change nothing. -/
theorem sweepAgain_of_stuck (resting : c.Resting) (swept : sweep c.pending c = .ok false t)
    (eq : t.pending.length = c.pending.length) :
    (∀ id ∈ t.pending, t.work.tree.stage id = .resolving) ∧
      ∀ count, sweepAgain count t = .ok () { t with sweeps := t.sweeps + count } := by
  obtain ⟨rest, w, ran, prompt, rfl⟩ := sweep_ok.mp swept
  obtain ⟨isAll, idle, repeats⟩ := Resolution.repeats_visitAll resting.supplied resting.rests ran eq prompt
  have again := repeats.again w.pool (.refl _)
  rw [← repeats.same] at again
  refine ⟨fun id mem => ?_, fun count => ?_⟩
  · rw [repeats.same]
    exact (idle id (isAll ▸ mem)).stage
  · generalize c.sweeps + 1 = sweeps
    induction count generalizing sweeps with
    | zero => rfl
    | succ count ih =>
      have once : sweep rest.deferred { c with work := w, sweeps, pending := rest.deferred } =
          .ok rest.waiting { c with work := w, sweeps := sweeps + 1, pending := rest.deferred } :=
        sweep_ok.mpr ⟨rest, w, by rw [isAll]; exact again, rfl, rfl⟩
      refine (bind_of_ok rfl).trans ((bind_of_ok once).trans ((ih (sweeps + 1)).trans ?_))
      simp only [Nat.add_assoc, Nat.add_comm 1]

theorem Sweeping.sweepAgain {left count unresolved : Nat}
    (run : Sweeping left c (.noProgress count unresolved) t) (resting : c.Resting) :
    t.pending.length = unresolved ∧ (∀ id ∈ t.pending, t.work.tree.stage id = .resolving) ∧
      ∀ more, sweepAgain more t = .ok () { t with sweeps := t.sweeps + more } := by
  generalize isOutcome : Outcome.noProgress count unresolved = out at run
  induction run with
  | complete | limit => simp at isOutcome
  | stuck _ swept eq =>
    cases isOutcome
    exact ⟨eq, sweepAgain_of_stuck resting swept eq⟩
  | again _ swept _ _ ih => exact ih (resting_of_sweep resting.supplied resting.present swept) isOutcome

end Course

end TreeCompiler
