import TreeCompiler.Proofs.Categories
import TreeCompiler.Proofs.NameRules
import TreeCompiler.Proofs.Sweeps

/-!
# Types that are sought

While names are resolved, a named type is noted with an open placeholder as long as it waits and
with a meaning once it is resolved. A type expression then denotes a complete type exactly if its
named parts are resolved and no part of it is text that is no type.
-/

namespace TreeCompiler

open Step

variable {ty : TypeExpr} {ids : List NodeId}

namespace Step

variable {ε σ α β : Type} {m : EStateM ε σ α} {f : α → EStateM ε σ β} {s t : σ} {a : α}
  {post : α → σ → Prop} {later : β → σ → Prop}

/-- A step succeeds, and what it gives and leaves satisfies a condition. -/
def Ends (m : EStateM ε σ α) (s : σ) (post : α → σ → Prop) : Prop := ∃ a t, m s = .ok a t ∧ post a t

namespace Ends

theorem of_ok (ran : m s = .ok a t) (h : post a t) : Ends m s post := ⟨a, t, ran, h⟩

theorem pure (h : post a s) : Ends (Pure.pure a : EStateM ε σ α) s post := ⟨a, s, rfl, h⟩

theorem bind (fst : Ends m s post) (rest : ∀ a t, post a t → Ends (f a) t later) :
    Ends (m >>= f) s later := by
  obtain ⟨a, t, ran, h⟩ := fst
  obtain ⟨b, u, ranRest, ended⟩ := rest a t h
  exact ⟨b, u, (bind_of_ok ran).trans ranRest, ended⟩

theorem after (ran : m s = .ok a t) (rest : Ends (f a) t later) : Ends (m >>= f) s later := by
  obtain ⟨b, u, ranRest, ended⟩ := rest
  exact ⟨b, u, (bind_of_ok ran).trans ranRest, ended⟩

theorem imp {wider : α → σ → Prop} (ends : Ends m s post) (h : ∀ a t, post a t → wider a t) :
    Ends m s wider := by
  obtain ⟨a, t, ran, ended⟩ := ends
  exact ⟨a, t, ran, h a t ended⟩

end Ends

end Step

namespace Pool

theorem not_means_of_open {p : Pool} {id : ConstId} {name : String} {term : Term}
    (ho : p.entry? id = some (.placeholder name none)) : ¬p.Means id term := by
  intro means
  cases means with
  | intro hf => simp [get, follow, followWithin, ho, entry, bind, Except.bind, pure,
      Except.pure] at hf

end Pool

namespace Sink

/-- Diagnostics pile up without a limit, and none of them is fatal. -/
def Uncapped : Sink → Prop
  | .keeping log => log.limit = 0 ∧ log.worst ≠ .fatal
  | .silent => True

theorem Uncapped.abortDesired {sink : Sink} (uncapped : sink.Uncapped) :
    sink.abortDesired = false := by
  cases sink with
  | silent => rfl
  | keeping log => simp [Sink.abortDesired, Log.abortDesired, Log.limitReached, uncapped.1, uncapped.2]

theorem Uncapped.reportError {sink : Sink} (uncapped : sink.Uncapped) (code : Code)
    (args : List String) (span : Span) : (sink.report (.errorAt code args span)).Uncapped := by
  cases sink with
  | silent => trivial
  | keeping log =>
    refine ⟨uncapped.1, ?_⟩
    have mild := uncapped.2
    simp only [Log.worst, Log.add, List.foldl_append, List.foldl_cons, Severity.worse,
      Diagnostic.errorAt] at mild ⊢
    split
    · simp
    · exact mild

end Sink

/-- The positions for types hold type expressions. -/
def Tree.HoldsTypes (tree : Tree) (r : NodeId) : Prop :=
  ∀ id form, tree.Below r id → tree.form? id = some form →
    ∀ c, (Slot.type, c) ∈ form.slots → (tree.type? c).isSome

theorem Tree.IsWellFormed.holdsTypes {tree : Tree} {r : NodeId} (formed : tree.IsWellFormed r) :
    tree.HoldsTypes r := by
  intro id form hb hf c mem
  obtain ⟨held, here, admits⟩ := formed.filled id form hb hf .type c mem
  cases held with
  | type ty => simp [Tree.type?, here, Form.type?]
  | stmt stmt | expr expr => simp [Slot.admits] at admits

/-! ### Notes -/

/-- A named type waits to be resolved. -/
structure Tree.Waits (s₀ now : Tree) (id : NodeId) : Prop where
  named : s₀.isNamed id = true
  unresolved : now.stage id ≠ .resolved
  unfailed : now.stage id ≠ .failed

namespace Work

/-- What is noted about a node fits its stage: a named type that waits has an open placeholder at
most, and what else is noted about a named type or keyword means a type. -/
structure Noted (s₀ : Tree) (w : Work) (id : NodeId) : Prop where
  waiting : s₀.Waits w.tree id → ∀ ty, (w.tree.facts id).type = some ty →
    ∃ name, w.pool.entry? ty = some (.placeholder name none)
  resolved : s₀.isNamed id = true → w.tree.stage id = .resolved →
    ∃ ty term, (w.tree.facts id).type = some ty ∧ w.pool.Means ty term
  keyword : ∀ word, s₀.type? id = some (.keyword word) →
    ∀ ty, (w.tree.facts id).type = some ty → ∃ term, w.pool.Means ty term
  spelled : ∀ word, s₀.type? id = some (.keyword word) → w.tree.stage id = .resolved →
    (w.tree.facts id).type.isSome

/-- Work on a unit whose names are being resolved: what is resolved can be, what has failed cannot
be, and no two named types share a placeholder. -/
structure Seeks (s₀ : Tree) (table : SymbolTable) (sc : String) (w : Work) : Prop where
  shape : s₀.SameShape w.tree
  symbols : w.symbols = table
  uncapped : w.sink.Uncapped
  known : ∀ sym ∈ table.symbols, ∀ ty, sym.component = .type ty → ∃ term, w.pool.Means ty term
  early : ∀ id, w.tree.stage id ∈ [.initial, .resolving, .resolved, .failed]
  noted : ∀ id, w.Noted s₀ id
  apart : ∀ id x ty, s₀.Waits w.tree id → s₀.Waits w.tree x →
    (w.tree.facts id).type = some ty → (w.tree.facts x).type = some ty → id = x
  sound : ∀ id, s₀.isDeferrable id = true → w.tree.stage id = .resolved → id ∈ s₀.resolvable table sc
  failed : ∀ id, w.tree.stage id = .failed → s₀.isNamed id = true ∧ ∀ known, ¬s₀.Grants table sc known id

variable {s₀ : Tree} {table : SymbolTable} {sc : String} {w t₁ : Work} {id : NodeId}

theorem Noted.keep {b : Work} (hno : b.Noted s₀ id)
    (eq : t₁.tree.facts id = b.tree.facts id) (retains : b.pool.Retains t₁.pool)
    (opens : s₀.Waits b.tree id → ∀ ty name, (b.tree.facts id).type = some ty →
      b.pool.entry? ty = some (.placeholder name none) →
        t₁.pool.entry? ty = some (.placeholder name none)) : t₁.Noted s₀ id := by
  have stages : t₁.tree.stage id = b.tree.stage id := congrArg Facts.stage eq
  refine ⟨fun waits ty hf => ?_, fun hn stage => ?_, fun word isWord ty hf => ?_,
    fun word isWord stage => ?_⟩
  · have waited : s₀.Waits b.tree id :=
      ⟨waits.named, stages ▸ waits.unresolved, stages ▸ waits.unfailed⟩
    rw [eq] at hf
    obtain ⟨name, ho⟩ := hno.waiting waited ty hf
    exact ⟨name, opens waited ty name hf ho⟩
  · obtain ⟨ty, term, hf, means⟩ := hno.resolved hn (stages.symm.trans stage)
    exact ⟨ty, term, by rw [eq, hf], retains _ _ means⟩
  · rw [eq] at hf
    obtain ⟨term, means⟩ := hno.keyword word isWord ty hf
    exact ⟨term, retains _ _ means⟩
  · rw [eq]
    exact hno.spelled word isWord (stages.symm.trans stage)

/-- Work that differs from other work at one node, and in a pool that fills one placeholder at
most. -/
structure Alters (id : NodeId) (filled : Option ConstId) (b t₁ : Work) : Prop where
  shape : b.tree.SameShape t₁.tree
  symbols : t₁.symbols = b.symbols
  facts : ∀ x, x ≠ id → t₁.tree.facts x = b.tree.facts x
  retains : b.pool.Retains t₁.pool
  opens : ∀ ty name, b.pool.entry? ty = some (.placeholder name none) → some ty ≠ filled →
    t₁.pool.entry? ty = some (.placeholder name none)

/-- The search goes on after a change at one node if what is said about this node is right. -/
theorem Seeks.alter {filled : Option ConstId} (seeks : w.Seeks s₀ table sc)
    (alters : w.Alters id filled t₁) (uncapped : t₁.sink.Uncapped)
    (fills : filled ≠ none → s₀.Waits w.tree id ∧ (w.tree.facts id).type = filled)
    (early : t₁.tree.stage id ∈ [Stage.initial, .resolving, .resolved, .failed])
    (hn : t₁.Noted s₀ id) (alone : s₀.Waits t₁.tree id → ∀ x ty, x ≠ id → s₀.Waits w.tree x →
      (t₁.tree.facts id).type = some ty → (w.tree.facts x).type ≠ some ty)
    (sound : s₀.isDeferrable id = true → t₁.tree.stage id = .resolved → id ∈ s₀.resolvable table sc)
    (hx : t₁.tree.stage id = .failed → s₀.isNamed id = true ∧
      ∀ hk, ¬s₀.Grants table sc hk id) : t₁.Seeks s₀ table sc := by
  have stages : ∀ x, x ≠ id → t₁.tree.stage x = w.tree.stage x :=
    fun x ne => congrArg Facts.stage (alters.facts x ne)
  have waited : ∀ x, x ≠ id → s₀.Waits t₁.tree x → s₀.Waits w.tree x :=
    fun x ne waits =>
      ⟨waits.named, stages x ne ▸ waits.unresolved, stages x ne ▸ waits.unfailed⟩
  refine ⟨seeks.shape.trans alters.shape, alters.symbols.trans seeks.symbols, uncapped,
    ?_, ?_, ?_, ?_, ?_, ?_⟩
  · intro sym mem ty ht
    obtain ⟨term, means⟩ := seeks.known sym mem ty ht
    exact ⟨term, alters.retains _ _ means⟩
  · intro x
    by_cases eq : x = id
    · exact eq ▸ early
    · exact stages x eq ▸ seeks.early x
  · intro x
    by_cases eq : x = id
    · exact eq ▸ hn
    · refine (seeks.noted x).keep (alters.facts x eq) alters.retains ?_
      intro waits ty name hf ho
      refine alters.opens ty name ho fun isFilled => ?_
      obtain ⟨waitsHere, here⟩ := fills (by simp [← isFilled])
      exact eq (seeks.apart x id ty waits waitsHere hf (here.trans isFilled.symm))
  · intro fst snd ty waits waitsToo hf foundToo
    by_cases isFirst : fst = id
    · by_cases isSecond : snd = id
      · rw [isFirst, isSecond]
      · rw [isFirst] at waits hf
        rw [alters.facts snd isSecond] at foundToo
        exact absurd foundToo (alone waits snd ty isSecond (waited snd isSecond waitsToo) hf)
    · by_cases isSecond : snd = id
      · rw [isSecond] at waitsToo foundToo
        rw [alters.facts fst isFirst] at hf
        exact absurd hf (alone waitsToo fst ty isFirst (waited fst isFirst waits) foundToo)
      · rw [alters.facts fst isFirst] at hf
        rw [alters.facts snd isSecond] at foundToo
        exact seeks.apart fst snd ty (waited fst isFirst waits) (waited snd isSecond waitsToo)
          hf foundToo
  · intro x asks stage
    by_cases eq : x = id
    · subst eq
      exact sound asks stage
    · exact seeks.sound x asks (stages x eq ▸ stage)
  · intro x stage
    by_cases eq : x = id
    · subst eq
      exact hx stage
    · exact seeks.failed x (stages x eq ▸ stage)

theorem Seeks.grown (seeks : w.Seeks s₀ table sc) (hg : w.Grown t₁) :
    t₁.Seeks s₀ table sc := by
  obtain ⟨p, extd, rfl⟩ := hg
  refine ⟨seeks.shape, seeks.symbols, seeks.uncapped, ?_, seeks.early, ?_, seeks.apart, seeks.sound,
    seeks.failed⟩
  · intro sym mem ty ht
    obtain ⟨term, means⟩ := seeks.known sym mem ty ht
    exact ⟨term, means.extends extd⟩
  · intro id
    exact (seeks.noted id).keep rfl extd.retains fun _ ty name _ => extd.holds _ _

end Work

/-! ### Type expressions -/

namespace Tree

variable {s₀ now : Tree} {r id i : NodeId}

/-- The named parts of a type expression are resolved, and none of its parts is text that is no
type. -/
structure Whole (s₀ now : Tree) (id : NodeId) : Prop where
  named : ∀ part, s₀.Below id part → s₀.isNamed part = true → now.stage part = .resolved
  clean : ∀ part text, s₀.Below id part → s₀.type? part ≠ some (.bad text)

/-- The keywords in a type expression have their types. -/
def Worded (s₀ now : Tree) (id : NodeId) : Prop :=
  ∀ part word, s₀.Below id part → s₀.type? part = some (.keyword word) → (now.facts part).type.isSome

theorem Whole.child (whole : s₀.Whole now id) (mem : i ∈ s₀.children id) : s₀.Whole now i :=
  ⟨fun part hb => whole.named part ((Below.root.child mem).trans hb),
    fun part text hb => whole.clean part text ((Below.root.child mem).trans hb)⟩

theorem Worded.child (worded : s₀.Worded now id) (mem : i ∈ s₀.children id) : s₀.Worded now i :=
  fun part word hb => worded part word ((Below.root.child mem).trans hb)

theorem whole_of_children (hn : s₀.isNamed id = true → now.stage id = .resolved)
    (clean : ∀ text, s₀.type? id ≠ some (.bad text))
    (each : ∀ c ∈ s₀.children id, s₀.Whole now c) : s₀.Whole now id := by
  refine ⟨fun part hb isNamed => ?_, fun part text hb => ?_⟩
  · rcases hb.eq_or_under_child with rfl | ⟨c, mem, under⟩
    · exact hn isNamed
    · exact (each c mem).named part under isNamed
  · rcases hb.eq_or_under_child with rfl | ⟨c, mem, under⟩
    · exact clean text
    · exact (each c mem).clean part text under

theorem form?_of_type (hf : s₀.type? id = some ty) : s₀.form? id = some (.type ty) := by
  obtain ⟨form, hp, held⟩ := Option.bind_eq_some_iff.mp hf
  cases form <;> simp_all [Form.type?]

theorem children_of_type (hf : s₀.type? id = some ty) : s₀.children id = ty.children := by
  simp [children, form?_of_type hf, Form.children]

/-- The parts of a type expression are type expressions. -/
theorem HoldsTypes.part (typed : s₀.HoldsTypes r) (hb : s₀.Below r id)
    (hf : s₀.type? id = some ty) (mem : i ∈ s₀.children id) : (s₀.type? i).isSome := by
  refine typed id _ hb (form?_of_type hf) i ?_
  rw [children_of_type hf] at mem
  exact List.mem_map_of_mem mem

/-- A look at a type expression gives a type once all its parts are known, and no type that it gives
can be complete before. -/
structure Assembles (s₀ now : Tree) (id : NodeId) (type? : Option ConstId) (p : Pool) : Prop where
  complete : s₀.Whole now id → s₀.Worded now id → ∃ ty term, type? = some ty ∧ p.Means ty term
  whole : ∀ ty, type? = some ty → ∀ later : Pool, later.Extends p →
    ∀ term, later.Means ty term → s₀.Whole now id

/-- The same for type expressions in a row. -/
structure AssemblesAll (s₀ now : Tree) (ids : List NodeId) (types? : Option (List ConstId))
    (p : Pool) : Prop where
  complete : (∀ id ∈ ids, s₀.Whole now id ∧ s₀.Worded now id) →
    ∃ types, types? = some types ∧ ∀ ty ∈ types, ∃ term, p.Means ty term
  whole : ∀ types, types? = some types → ∀ later : Pool, later.Extends p →
    (∀ ty ∈ types, ∃ term, later.Means ty term) → ∀ id ∈ ids, s₀.Whole now id

end Tree

namespace Pool

variable {p later : Pool} {k : Constant}

theorem exists_means_intern (ps : ∀ c ∈ k.children, ∃ term, p.Means c term) :
    ∃ term, (p.intern k).2.Means (p.intern k).1 term := by
  obtain ⟨terms, all⟩ := exists_forall₂ ps
  exact ⟨_, means_intern k all⟩

theorem exists_means_part (hg : later.Extends (p.intern k).2) {term : Term}
    (means : later.Means (p.intern k).1 term) : ∀ c ∈ k.children, ∃ term, later.Means c term := by
  intro c mem
  have hf := get_of_value (hg.holds _ _ (Extends.entry?_intern p k))
  obtain ⟨part, meansPart, -⟩ := means.part hf mem
  exact ⟨part, meansPart⟩

end Pool

theorem WorkM.intern_ok (w : Work) (k : Constant) : WorkM.onPool (PoolM.intern k) w =
      .ok (w.pool.intern k).1 (w.withPool (w.pool.intern k).2) :=
  onPool_ok.mpr ⟨_, modifyGet_ok.mpr rfl, rfl⟩

namespace Resolution

open WorkM

variable {s₀ : Tree} {table : SymbolTable} {sc : String} {w : Work} {r id : NodeId}

theorem ends_allKnown {look : NodeId → WorkM (Option ConstId)}
    (each : ∀ id ∈ ids, ∀ now : Work, now.Seeks s₀ table sc → Ends (look id) now fun type? t₁ =>
        now.Grown t₁ ∧ s₀.Assembles now.tree id type? t₁.pool) (seeks : w.Seeks s₀ table sc) :
    Ends (allKnown look ids) w fun types? t₁ =>
      w.Grown t₁ ∧ s₀.AssemblesAll w.tree ids types? t₁.pool := by
  induction ids generalizing w with
  | nil =>
    exact .pure ⟨.refl w, ⟨fun _ => ⟨[], rfl, by simp⟩, by simp⟩⟩
  | cons id rest ih =>
    refine (each id (by simp) w seeks).bind fun type? mid kept => ?_
    obtain ⟨hg, here⟩ := kept
    have rests := fun x mem => each x (List.mem_cons_of_mem id mem)
    cases type? with
    | none =>
      refine .pure ⟨hg, ⟨fun ps => ?_, by simp⟩⟩
      obtain ⟨ty, term, eq, -⟩ := here.complete (ps id (by simp)).1 (ps id (by simp)).2
      simp at eq
    | some ty =>
      refine (ih rests (seeks.grown hg)).bind fun types? last ⟨hf, others⟩ => ?_
      rw [hg.tree] at others
      refine .pure ⟨hg.trans hf, ⟨fun ps => ?_, ?_⟩⟩
      · obtain ⟨eq, term, isSame, means⟩ :=
          here.complete (ps id (by simp)).1 (ps id (by simp)).2
        cases isSame
        obtain ⟨types, rfl, all⟩ := others.complete fun x mem => ps x (by simp [mem])
        refine ⟨ty :: types, rfl, fun x mem => ?_⟩
        rcases List.mem_cons.mp mem with rfl | mem
        · exact ⟨term, means.extends hf.pool⟩
        · exact all x mem
      · intro types eq later extd all x mem
        obtain ⟨tail, rfl, rfl⟩ := Option.map_eq_some_iff.mp eq
        rcases List.mem_cons.mp mem with rfl | mem
        · obtain ⟨term, means⟩ := all ty (by simp)
          exact here.whole ty rfl later (extd.trans hf.pool) term means
        · exact others.whole tail rfl later extd
            (fun ty mem => all ty (by simp [mem])) x mem

/-- What is interned from types in a row, behind others that are known once the node is, is
assembled if they are. -/
theorem assembles_interned {now : Tree} (fst : List ConstId)
    {types : List ConstId} {p : Pool} {k : Constant} (all : s₀.AssemblesAll now ids (some types) p)
    (ps : k.children = fst ++ types) (hi : s₀.children id = ids)
    (clean : ∀ text, s₀.type? id ≠ some (.bad text))
    (meant : s₀.Whole now id → ∀ ty ∈ fst, ∃ term, p.Means ty term)
    (res : s₀.isNamed id = true → ∀ later : Pool, later.Extends p →
      (∀ ty ∈ fst, ∃ term, later.Means ty term) → now.stage id = .resolved) :
    s₀.Assembles now id (some (p.intern k).1) (p.intern k).2 := by
  refine ⟨fun whole worded => ?_, fun ty eq later extd term means => ?_⟩
  · obtain ⟨types', eq, meantTypes⟩ := all.complete fun x mem =>
      ⟨whole.child (hi ▸ mem), worded.child (hi ▸ mem)⟩
    cases eq
    have hk : ∀ c ∈ k.children, ∃ term, p.Means c term := by
      intro c mem
      rw [ps, List.mem_append] at mem
      exact mem.elim (meant whole c) (meantTypes c)
    obtain ⟨term, means⟩ := Pool.exists_means_intern hk
    exact ⟨_, term, rfl, means⟩
  · cases eq
    have hk := Pool.exists_means_part extd means
    have hf := extd.trans (Pool.Extends.intern p k)
    refine Tree.whole_of_children (fun hn => ?_) clean fun c mem => ?_
    · exact res hn later hf fun ty mem => hk ty (by simp [ps, mem])
    · exact all.whole types rfl later hf (fun ty mem => hk ty (by simp [ps, mem])) c (hi ▸ mem)

/-- A type expression that is not given a type is not whole. -/
theorem assembles_none {now : Tree} {p : Pool}
    (lacks : s₀.Whole now id → ¬s₀.Worded now id) : s₀.Assembles now id none p :=
  ⟨fun whole worded => absurd worded (lacks whole), by simp⟩

theorem assembles_none_of_parts {now : Tree} {p : Pool}
    (all : s₀.AssemblesAll now ids none p) (hi : ∀ x ∈ ids, x ∈ s₀.children id) :
    s₀.Assembles now id none p := by
  refine assembles_none fun whole worded => ?_
  obtain ⟨types, eq, -⟩ := all.complete fun x mem =>
    ⟨whole.child (hi x mem), worded.child (hi x mem)⟩
  simp at eq

theorem assemblesAll_single {now : Tree} {type? : Option ConstId} {p : Pool}
    (here : s₀.Assembles now id type? p) : s₀.AssemblesAll now [id] (type?.map ([·])) p := by
  refine ⟨fun ps => ?_, fun types eq later extd all x mem => ?_⟩
  · obtain ⟨ty, term, rfl, means⟩ := here.complete (ps id (by simp)).1 (ps id (by simp)).2
    exact ⟨[ty], rfl, by simpa using ⟨term, means⟩⟩
  · obtain rfl := List.mem_singleton.mp mem
    obtain ⟨ty, rfl, rfl⟩ := Option.map_eq_some_iff.mp eq
    obtain ⟨term, means⟩ := all ty (by simp)
    exact here.whole ty rfl later extd term means

/-- A type expression is given a type that is complete exactly if it is whole. -/
theorem ends_currentTypeWithin (lk : s₀.IsLinked r) (typed : s₀.HoldsTypes r)
    {n : Nat} (deep : id.index < n) (hb : s₀.Below r id)
    (ht : (s₀.type? id).isSome) (seeks : w.Seeks s₀ table sc) :
    Ends (currentTypeWithin n id) w fun type? t₁ =>
      w.Grown t₁ ∧ s₀.Assembles w.tree id type? t₁.pool := by
  induction n generalizing id w with
  | zero => omega
  | succ n ih =>
    obtain ⟨ty, hf⟩ := Option.isSome_iff_exists.mp ht
    have each : ∀ c ∈ s₀.children id, ∀ now : Work, now.Seeks s₀ table sc →
        Ends (currentTypeWithin n c) now fun type? t₁ =>
          now.Grown t₁ ∧ s₀.Assembles now.tree c type? t₁.pool := by
      intro c mem now seeksNow
      have lower := lk.upward id c hb mem
      exact ih (by omega) (hb.child mem) (typed.part hb hf mem) seeksNow
    have hi := Tree.children_of_type hf
    refine .after rfl ?_
    split
    · rename_i hx
      refine .pure ⟨.refl w, assembles_none fun whole => ?_⟩
      have res := whole.named id .root (seeks.failed id hx).1
      simp [hx] at res
    · rename_i unfailed
      rw [seeks.shape.type?, hf]
      cases ty with
      | named names ps =>
        have es : ∀ c ∈ ps, c ∈ s₀.children id := by simp [hi, TypeExpr.children]
        refine (ends_allKnown (fun c mem => each c (es c mem)) seeks).bind
          fun types? mid kept => ?_
        obtain ⟨hg, all⟩ := kept
        have clean : ∀ text, s₀.type? id ≠ some (.bad text) := by simp [hf]
        -- a named type that has a meaning is resolved, as it would have an open placeholder otherwise
        have res : ∀ base, (w.tree.facts id).type = some base → ∀ later : Pool,
            later.Extends mid.pool → ∀ term, later.Means base term → w.tree.stage id = .resolved := by
          intro base hn later extd term means
          by_contra unresolved
          obtain ⟨name, ho⟩ := (seeks.noted id).waiting ⟨by simp [Tree.isNamed, hf], unresolved,
            unfailed⟩ base hn
          exact Pool.not_means_of_open (extd.holds _ _ (hg.pool.holds _ _ ho)) means
        have meant : s₀.Whole w.tree id → ∃ base term, (w.tree.facts id).type = some base ∧
            mid.pool.Means base term := by
          intro whole
          have isNamed : s₀.isNamed id = true := by simp [Tree.isNamed, hf]
          obtain ⟨base, term, hn, means⟩ :=
            (seeks.noted id).resolved isNamed (whole.named id .root isNamed)
          exact ⟨base, term, hn, means.extends hg.pool⟩
        cases hn : (w.tree.facts id).type with
        | none =>
          refine .pure ⟨hg, assembles_none fun whole => ?_⟩
          obtain ⟨base, term, eq, -⟩ := meant whole
          simp [hn] at eq
        | some base =>
          cases types? with
          | none => exact .pure ⟨hg, assembles_none_of_parts all es⟩
          | some types =>
            cases types with
            | nil =>
              refine .of_ok (map_ok.mpr ⟨base, onPool_ok.mpr ⟨_, rfl, rfl⟩, rfl⟩) ⟨hg, ?_⟩
              refine ⟨fun whole _ => ?_, fun ty eq later extd term means => ?_⟩
              · obtain ⟨base', term, eq, means⟩ := meant whole
                exact ⟨base, term, rfl, Option.some.inj (hn.symm.trans eq) ▸ means⟩
              · cases eq
                refine Tree.whole_of_children (fun _ => res base hn later extd term means) clean
                  fun c mem => ?_
                exact all.whole [] rfl later extd (by simp) c (by
                  simpa [hi, TypeExpr.children] using mem)
            | cons param rest =>
              refine Ends.of_ok (map_ok.mpr ⟨_, intern_ok mid _, rfl⟩) ⟨?_, ?_⟩
              · exact hg.trans ⟨_, Pool.Extends.intern _ _, rfl⟩
              · refine assembles_interned [base] all rfl hi clean (fun whole => ?_)
                  fun _ later extd hk => ?_
                · obtain ⟨base', term, eq, means⟩ := meant whole
                  simpa using ⟨term, Option.some.inj (hn.symm.trans eq) ▸ means⟩
                · obtain ⟨term, means⟩ := hk base (by simp)
                  exact res base hn later extd term means
      | keyword word =>
        refine .pure ⟨.refl w, ⟨fun whole worded => ?_, fun ty eq later extd term means => ?_⟩⟩
        · obtain ⟨ty, hn⟩ := Option.isSome_iff_exists.mp (worded id word .root hf)
          obtain ⟨term, means⟩ := (seeks.noted id).keyword word hf ty hn
          exact ⟨ty, term, hn, means⟩
        · exact Tree.whole_of_children (by simp [Tree.isNamed, hf]) (by simp [hf])
            (by simp [hi, TypeExpr.children])
      | tuple es =>
        have es : ∀ c ∈ es, c ∈ s₀.children id := by simp [hi, TypeExpr.children]
        refine (ends_allKnown (fun c mem => each c (es c mem)) seeks).bind
          fun types? mid kept => ?_
        obtain ⟨hg, all⟩ := kept
        cases types? with
        | none => exact .pure ⟨hg, assembles_none_of_parts all es⟩
        | some types =>
          refine (Ends.of_ok (map_ok.mpr ⟨_, intern_ok mid _, rfl⟩) ⟨?_, ?_⟩)
          · exact hg.trans ⟨_, Pool.Extends.intern _ _, rfl⟩
          · exact assembles_interned [] all rfl hi (by simp [hf]) (by simp) (by simp [Tree.isNamed, hf])
      | nullable i =>
        refine (each i (by simp [hi, TypeExpr.children]) w seeks).bind fun type? mid kept => ?_
        obtain ⟨hg, here⟩ := kept
        cases type? with
        | none =>
          exact .pure ⟨hg, assembles_none_of_parts (assemblesAll_single here) (by
            simp [hi, TypeExpr.children])⟩
        | some base =>
          refine Ends.of_ok (map_ok.mpr ⟨_, intern_ok mid _, rfl⟩) ⟨?_, ?_⟩
          · exact hg.trans ⟨_, Pool.Extends.intern _ _, rfl⟩
          · exact assembles_interned [] (assemblesAll_single here) rfl hi (by simp [hf])
              (by simp) (by simp [Tree.isNamed, hf])
      | bad text =>
        refine .pure ⟨.refl w, assembles_none fun whole => ?_⟩
        exact absurd hf (whole.clean id text .root)

theorem ends_typedefType (lk : s₀.IsLinked r) (hp : s₀.Has r)
    (typed : s₀.HoldsTypes r) {typedef ty : NodeId} {title : String}
    (hb : s₀.Below r typedef) (defined : s₀.stmt? typedef = some (.typedef title ty))
    (seeks : w.Seeks s₀ table sc) :
    Ends (typedefType typedef) w fun type? t₁ => w.Grown t₁ ∧ (∀ got, type? = some got →
        (∃ term, t₁.pool.Means got term) ∧ s₀.Whole w.tree ty) ∧
      (type? = none → s₀.Whole w.tree ty → ¬s₀.Worded w.tree ty) := by
  have mem : ty ∈ s₀.children typedef := by
    simp [s₀.children_of_stmt defined, Stmt.children]
  have ht : (s₀.type? ty).isSome :=
    typed typedef _ hb (s₀.form?_of_stmt defined) ty (by simp [Form.slots, Stmt.slots])
  have deep : ty.index < w.tree.fuel := by
    have hi := lk.index_lt_size (hb.child mem) hp
    rw [seeks.shape.fuel, Tree.fuel]
    omega
  obtain ⟨current, mid, ran, hg, here⟩ := ends_currentTypeWithin lk typed deep (hb.child mem) ht seeks
  have attempted : attempt (currentType ty) w = .ok (.ok current) mid := by
    unfold attempt currentType
    rw [bind_of_ok (tree_ok.mpr ⟨rfl, rfl⟩), ran]
  refine .after rfl ?_
  rw [seeks.shape.stmt?, defined]
  refine .after attempted ?_
  cases current with
  | none =>
    refine .pure ⟨hg, by simp, fun _ whole worded => ?_⟩
    obtain ⟨ty, term, eq, -⟩ := here.complete whole worded
    simp at eq
  | some current =>
    refine .after rfl ?_
    have undone : (∀ term, ¬mid.pool.Means current term) → s₀.Whole w.tree ty →
        ¬s₀.Worded w.tree ty := by
      intro meaningless whole worded
      obtain ⟨ty, term, eq, means⟩ := here.complete whole worded
      cases eq
      exact meaningless term means
    rcases res : mid.pool.isResolved current with _ | _ | _
    case ok.true =>
      obtain ⟨term, means⟩ := Pool.means_of_isResolved res
      obtain ⟨twin, p, ranTwin, extd, spells⟩ := means.canonical
      have ran : attempt (onPool (PoolM.canonical current)) mid =
          .ok (.ok twin) (mid.withPool p) := by
        unfold attempt
        rw [onPool_ok.mpr ⟨p, ranTwin, rfl⟩]
      refine .after ran (.pure ⟨hg.trans ⟨p, extd, rfl⟩, fun got eq => ?_, by
        simp [Except.toOption]⟩)
      cases eq
      exact ⟨⟨term, spells.means⟩, here.whole current rfl mid.pool (.refl _) term means⟩
    all_goals
      refine .pure ⟨hg, by simp, fun _ => undone fun term means => ?_⟩
      simp [means.isResolved] at res

end Resolution

end TreeCompiler
