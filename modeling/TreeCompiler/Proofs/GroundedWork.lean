import TreeCompiler.Proofs.CarefulPools
import TreeCompiler.Proofs.NotedTypes
import TreeCompiler.Proofs.ValidatedTrees

/-!
# Work on ids of the pool

Every id that the phases of a unit note is an id of the pool, and what a type name denotes depends
on no open hole when the hole of its use is filled with it. So each phase changes the pool
carefully, wherever it ends.
-/

namespace TreeCompiler

open Step

variable {b p : Pool} {type : ConstId}

/-- The id is in the pool. -/
abbrev Pool.Inside (p : Pool) (id : ConstId) : Prop := id.index < p.size

/-- The ids noted about a node are ids of the pool. -/
structure Facts.Within (facts : Facts) (p : Pool) : Prop where
  type : ∀ type, facts.type = some type → p.Inside type
  constant : ∀ v, facts.constant = some v → p.Inside v
  bound : ∀ type v, facts.binding = some (.constant type v) → p.Inside type ∧ p.Inside v

/-- What a component denotes is in the pool, and as a type it depends on no open placeholder. -/
def Component.Within (p : Pool) : Component → Prop
  | .type ty => p.isResolved ty = .ok true
  | .constant ty v => p.Inside ty ∧ p.Inside v
  | .space _ => True

/-- The work is about ids of its pool, and these can be written out. -/
structure Work.Grounded (w : Work) : Prop where
  pool : w.pool.Expandable
  facts : ∀ id, (w.tree.facts id).Within w.pool
  symbols : ∀ sym ∈ w.symbols.symbols, sym.component.Within w.pool

/-- Grounded work whose pool has come from another by careful changes. -/
structure Work.From (s : Pool) (w : Work) : Prop extends w.Grounded where
  evolves : s.Evolves w.pool

theorem Pool.Retains.isResolved {u : Pool} (retains : b.Retains u) {id : ConstId}
    (res : b.isResolved id = .ok true) : u.isResolved id = .ok true := by
  obtain ⟨term, means⟩ := means_of_isResolved res
  exact (retains id term means).isResolved

/-- The ids noted about a node: its type, its value, and what its name is bound to. -/
def Facts.noted (facts : Facts) : Option ConstId × Option ConstId × Option Binding :=
  (facts.type, facts.constant, facts.binding)

theorem Facts.Within.congr {facts x : Facts} (win : facts.Within p)
    (eq : x.noted = facts.noted) : x.Within p := by
  simp only [Facts.noted, Prod.mk.injEq] at eq
  obtain ⟨type, k, binding⟩ := eq
  exact ⟨type ▸ win.type, k ▸ win.constant, binding ▸ win.bound⟩

theorem Facts.Within.evolves {facts : Facts} {u : Pool} (win : facts.Within b)
    (evolves : b.Evolves u) : facts.Within u := by
  have larger := evolves.size_le
  refine ⟨fun type hn => ?_, fun v hn => ?_, fun type v bound => ?_⟩
  · exact Nat.lt_of_lt_of_le (win.type type hn) larger
  · exact Nat.lt_of_lt_of_le (win.constant v hn) larger
  · exact ⟨Nat.lt_of_lt_of_le (win.bound type v bound).1 larger,
      Nat.lt_of_lt_of_le (win.bound type v bound).2 larger⟩

theorem Component.Within.evolves {comp : Component} {u : Pool}
    (win : comp.Within b) (evolves : b.Evolves u) : comp.Within u := by
  cases comp with
  | type type => exact evolves.retains.isResolved win
  | constant type v =>
    exact ⟨Nat.lt_of_lt_of_le win.1 evolves.size_le, Nat.lt_of_lt_of_le win.2 evolves.size_le⟩
  | space name => trivial

namespace Work.From

variable {s : Pool} {w u : Work}

theorem withPool (h : w.From s) (evolves : w.pool.Evolves p) : (w.withPool p).From s where
  pool := evolves.expandable h.pool
  facts id := (h.facts id).evolves evolves
  symbols sym mem := (h.symbols sym mem).evolves evolves
  evolves := Trans.trans h.evolves evolves

/-- What changes neither the pool nor the symbols nor the ids noted leaves work grounded. -/
theorem keep (h : w.From s) (p : u.pool = w.pool)
    (symbols : u.symbols = w.symbols) (facts : ∀ id, (u.tree.facts id).Within w.pool) :
    u.From s where
  pool := by rw [p]; exact h.pool
  facts id := by rw [p]; exact facts id
  symbols := by rw [symbols, p]; exact h.symbols
  evolves := by rw [p]; exact h.evolves

theorem modifyFacts (h : w.From s) (id : NodeId) {f : Facts → Facts}
    (win : ∀ facts : Facts, facts.Within w.pool → (f facts).Within w.pool) :
    (w.withTree (w.tree.modifyFacts id f)).From s := by
  refine h.keep rfl rfl fun x => ?_
  rcases w.tree.facts_modify_cases id x f with eq | ⟨-, changed⟩
  · exact eq ▸ h.facts x
  · exact changed ▸ win _ (h.facts x)

theorem upholds_withPool (h : w.From s) (evolves : w.pool.Evolves p) :
    w.Upholds (Work.From s) Pool.Inside (w.withPool p) :=
  ⟨h.withPool evolves, fun _ hi => Nat.lt_of_lt_of_le hi evolves.size_le⟩

end Work.From

/-! ### Resolution -/

namespace Resolution

open WorkM Pool
open ExpressionInvariant (goes_pure)

variable {s : Pool} {w : Work} {α : Type}

theorem goes_onPool {step : PoolM α} {Q : α → Pool → Prop} (h : w.From s)
    (goes : Goes Evolves step Q w.pool) :
    Goes (Work.Upholds (Work.From s) Inside) (onPool step) (fun a u => Q a u.pool) w :=
  goes_of_pool goes fun _ => h.upholds_withPool

theorem goes_intern {k : Constant} (h : w.From s) (hi : ∀ c ∈ k.children, w.pool.Inside c) :
    Goes (Work.Upholds (Work.From s) Inside) (onPool (.intern k))
    (fun id u => u.pool.Inside id) w :=
  goes_onPool (Q := fun id p => p.Inside id) h (PoolM.goes_intern hi)

/-- The canonical twin of what depends on no open placeholder depends on none. -/
theorem goes_canonical_resolved {current : ConstId} (all : p.Expandable)
    (res : p.isResolved current = .ok true) :
    Goes Evolves (PoolM.canonical current) (fun twin u => u.isResolved twin = .ok true) p := by
  refine (PoolM.goes_canonical current all).withRun.answering fun twin u _ ⟨_, ran⟩ => ?_
  obtain ⟨term, means⟩ := means_of_isResolved res
  obtain ⟨twin', after', ran', -, spells⟩ := means.canonical
  rw [ran] at ran'
  injection ran' with sameTwin samePool
  subst sameTwin samePool
  exact spells.means.isResolved

theorem inside_of_isResolved (res : p.isResolved type = .ok true) : p.Inside type := by
  obtain ⟨term, means⟩ := means_of_isResolved res
  exact means.lt_size

/-- Resolution notes ids of the pool, and names denote types that depend on no open placeholder. -/
theorem typing_from (s : Pool) :
    TypingInvariant (Work.From s) Inside fun p type => p.isResolved type = .ok true where
  known := inside_of_isResolved
  noted h hn := (h.facts _).type _ hn
  symbol h mem eq := by
    have win := h.symbols _ mem
    rwa [eq] at win
  lookup sc name h := by
    refine ⟨⟨h.pool, h.facts, fun sym mem => ?_⟩, h.evolves⟩
    obtain ⟨old, hi, eq⟩ := SymbolTable.component_lookup mem
    exact eq ▸ h.symbols old hi
  intern := goes_intern
  named {w} name h := by
    refine goes_onPool (Q := fun type p => p.isResolved type = .ok true) h ?_
    refine (PoolM.goes_internLeaf rfl).withRun.answering fun type u _ ⟨_, ran⟩ => ?_
    have means := means_intern_leaf (p := w.pool) (.type (.named name)) rfl
    rw [modifyGet_ok.mp ran] at means
    exact means.isResolved
  canonical h res := goes_onPool h (goes_canonical_resolved h.pool res)
  placeholder name h := goes_onPool h (PoolM.goes_newPlaceholder name)
  fill _ h res := goes_onPool h (PoolM.goes_fill h.pool res)
  type id h hi := h.modifyFacts id fun _ win => ⟨by rintro _ ⟨rfl⟩; exact hi, win.constant, win.bound⟩
  bind id h finds := h.modifyFacts id fun _ win => ⟨win.type, win.constant, by
    rintro type v ⟨rfl⟩
    obtain ⟨sym, mem, eq⟩ := finds type v rfl
    have win := h.symbols sym mem
    rwa [eq] at win⟩
  stage id _ h := h.modifyFacts id fun _ win => ⟨win.type, win.constant, win.bound⟩
  report _ h := h.keep rfl rfl h.facts

theorem goes_resolveType (id : NodeId) (h : w.From s) :
    Gives (Work.From s) Inside (resolveType id) w := by
  refine goes_tree ?_
  split
  · exact Goes.bind ((typing_from s).upheld_reportAt _ _ _ h) fun _ _ hu _ =>
      goes_pure hu.holds (by simp)
  · refine Goes.bind ((typing_from s).goes_currentType id h) fun current mid hu _ => ?_
    split
    · exact goes_pure hu.holds (by simp)
    · refine Goes.bind (goes_onPool hu.holds (PoolM.goes_read _)) fun res now hf _ => ?_
      split
      · refine Goes.bind (goes_onPool hf.holds (PoolM.goes_canonical _ hf.holds.pool))
          fun type u later hi => ?_
        refine Goes.bind ((typing_from s).goes_noteType id later.holds hi) fun _ last hn _ =>
          goes_pure hn.holds ?_
        rintro _ ⟨rfl⟩
        exact hn.held _ hi
      · exact goes_pure hf.holds (by simp)

end Resolution

/-! ### Validation and emission -/

/-- Validation notes ids of the pool and builds constants from such ids. -/
theorem checking_from (s : Pool) : CheckingInvariant .any (Work.From s) Pool.Inside where
  toLeads := .any
  type h hn := (h.facts _).type _ hn
  constant h hn := (h.facts _).constant _ hn
  bound h bound := (h.facts _).bound _ _ bound
  stage _ id _ h _ _ := h.modifyFacts id fun _ win =>
    ⟨win.type, win.constant, win.bound⟩
  typed _ id _ _ _ h _ _ rated := h.modifyFacts id fun _ win =>
    ⟨by rintro _ ⟨rfl⟩; exact rated.1, fun v eq => (rated.2 v eq).1, win.bound⟩
  fitted _ id _ h _ := h.modifyFacts id fun _ win =>
    ⟨win.type, win.constant, win.bound⟩
  report _ _ h := h.keep rfl rfl h.facts
  jump w id _ _ _ h _ _ _ _ := by
    refine h.keep rfl rfl fun x => (h.facts x).congr ?_
    exact w.facts_jumped_of Facts.noted (fun _ => rfl) id _ x
  replace w _ _ _ _ h _ _ _ _ := by
    refine h.keep rfl rfl fun x => ?_
    rw [Work.withTree_tree, Tree.facts_replaceChild]
    exact h.facts x
  resolved id h _ := Resolution.goes_resolveType id h
  intern h hi := Resolution.goes_intern h hi
  canonical id _ h := (Resolution.goes_onPool h (PoolM.goes_canonical id h.pool)).answering
    fun _ _ _ _ => trivial
  typeOf id h := Resolution.goes_onPool h (PoolM.goes_typeOf id h.pool)
  fit actual req _ h :=
    Resolution.goes_onPool h (Validation.goes_fit actual req h.pool)
  foldUnary op arg h := Resolution.goes_onPool h (Validation.goes_foldUnary op arg)
  foldBinary op left right h :=
    Resolution.goes_onPool h (Validation.goes_foldBinary op left right h.pool)

/-- Emission changes neither the pool nor what is noted of it. -/
theorem sending_from (s : Pool) : SendingInvariant (fun _ => True) (Work.From s) where
  child _ _ _ := trivial
  sent _ id h _ := h.modifyFacts id fun _ win =>
    ⟨win.type, win.constant, win.bound⟩
  reach _ id _ h := h.modifyFacts id fun _ win =>
    ⟨win.type, win.constant, win.bound⟩
  report _ _ h := h.keep rfl rfl h.facts
  scope w own h := by
    refine h.keep rfl rfl fun x => (h.facts x).congr ?_
    exact w.facts_withScope_of Facts.noted (fun _ _ => rfl) own x

end TreeCompiler
