import TreeCompiler.Proofs.Expansions

/-!
# What constants mean

A constant refers to its parts by their ids. Written out with all its parts it is a term, and two
ids mean the same term whatever placeholders stand between. An id that means a term depends on no
open placeholder, and its canonical twin means the same term without any placeholder.
-/

namespace TreeCompiler

open Step

variable {p : Pool} {id : ConstId} {k : Constant} {term : Term}

/-- A constant with all its parts written out. -/
inductive Term where
  | node (l : Constant) (ps : List Term)

namespace Term

/-- The number of nodes of a term. -/
def weight : Term → Nat
  | node _ ps => 1 + (ps.map weight).sum

theorem weight_lt_of_mem {l : Constant} {ps : List Term} {part : Term}
    (mem : part ∈ ps) : part.weight < (node l ps).weight := by
  have bound : part.weight ≤ (ps.map weight).sum :=
    List.single_le_sum (by simp) _ (List.mem_map.mpr ⟨part, mem, rfl⟩)
  rw [weight]
  omega

/-- The term as an expansion, in which no placeholder is open. -/
def expansion : Term → Expansion
  | node l ps => .node l (ps.map expansion)

end Term

namespace Pool

/-- The term that an id means. -/
inductive Means (p : Pool) : ConstId → Term → Prop
  | intro {id : ConstId} {k : Constant} {ps : List Term}
      (hf : p.get id = .ok (some k))
      (arity : k.children.length = ps.length)
      (each : ∀ (i : Nat) c part, k.children[i]? = some c → ps[i]? = some part → Means p c part) :
      Means p id (.node k.shell ps)

/-- The term that an id means without any placeholder. -/
inductive Spells (p : Pool) : ConstId → Term → Prop
  | intro {id : ConstId} {k : Constant} {ps : List Term}
      (hf : p.entry? id = some (.value k))
      (arity : k.children.length = ps.length)
      (each : ∀ (i : Nat) c part, k.children[i]? = some c →
        ps[i]? = some part → Spells p c part) :
      Spells p id (.node k.shell ps)

theorem get_of_value (hf : p.entry? id = some (.value k)) : p.get id = .ok (some k) := by
  simp [get, follow, followWithin, hf, entry, bind, Except.bind, pure, Except.pure]

theorem Spells.means (spells : p.Spells id term) : p.Means id term := by
  induction spells with
  | intro hf arity _ ih => exact .intro (get_of_value hf) arity ih

theorem Means.extends {b t : Pool} (hg : t.Extends b)
    (means : b.Means id term) : t.Means id term := by
  induction means with
  | intro hf arity _ ih => exact .intro (hg.get hf) arity ih

theorem Spells.extends {b t : Pool} (hg : t.Extends b)
    (spells : b.Spells id term) : t.Spells id term := by
  induction spells with
  | intro hf arity _ ih => exact .intro (hg.holds _ _ hf) arity ih

theorem Means.unique {fst snd : Term}
    (means : p.Means id fst) (again : p.Means id snd) : fst = snd := by
  induction means generalizing snd with
  | @intro id k ps hf arity _ ih =>
    cases again with
    | @intro _ x others foundOther arityOther eachOther =>
      obtain rfl : k = x := by
        rw [hf] at foundOther
        exact Option.some.inj (Except.ok.inj foundOther)
      have eq : ps = others := by
        apply List.ext_getElem?
        intro i
        by_cases hi : i < k.children.length
        · obtain ⟨c, hasChild⟩ : ∃ c, k.children[i]? = some c :=
            ⟨_, List.getElem?_eq_getElem hi⟩
          obtain ⟨part, hasPart⟩ : ∃ part, ps[i]? = some part :=
            ⟨_, List.getElem?_eq_getElem (arity ▸ hi)⟩
          obtain ⟨part', hasPart'⟩ : ∃ part, others[i]? = some part :=
            ⟨_, List.getElem?_eq_getElem (arityOther ▸ hi)⟩
          rw [hasPart, hasPart', ih i c part hasChild hasPart (eachOther i c part' hasChild hasPart')]
        · rw [List.getElem?_eq_none (by omega), List.getElem?_eq_none (by omega)]
      rw [eq]

/-- An id that stands for a constant leads to it. -/
theorem follow_of_get (hf : p.get id = .ok (some k)) :
    ∃ tgt, p.follow id = .ok tgt ∧ p.entry? tgt = some (.value k) := by
  unfold get at hf
  cases followed : p.follow id with
  | error error => simp [followed, bind, Except.bind] at hf
  | ok tgt =>
    refine ⟨tgt, rfl, ?_⟩
    simp only [followed, bind, Except.bind, entry] at hf
    cases hp : p.entry? tgt with
    | none => simp [hp] at hf
    | some en =>
      cases en with
      | value v =>
        simp only [hp, pure, Except.pure, Except.ok.injEq, Option.some.injEq] at hf
        rw [hf]
      | placeholder name tgt => simp [hp, pure, Except.pure] at hf

theorem Means.expands (means : p.Means id term) : p.Expands true id term.expansion := by
  induction means with
  | @intro id k ps hf arity _ ih =>
    obtain ⟨tgt, followed, en⟩ := follow_of_get hf
    obtain ⟨count, hl⟩ := Leads.of_followWithin followed
    refine hl.expands ?_
    rw [Term.expansion]
    refine .of_parts en (forall₂_of_getElem? (by simpa using arity) ?_)
    intro i c part hasChild hasPart
    rw [List.getElem?_map] at hasPart
    obtain ⟨orig, hasOriginal, rfl⟩ := Option.map_eq_some_iff.mp hasPart
    exact ih i c orig hasChild hasOriginal

theorem Spells.expands (spells : p.Spells id term) : p.Expands false id term.expansion := by
  induction spells with
  | @intro id k ps hf arity _ ih =>
    rw [Term.expansion]
    refine .of_parts hf (forall₂_of_getElem? (by simpa using arity) ?_)
    intro i c part hasChild hasPart
    rw [List.getElem?_map] at hasPart
    obtain ⟨orig, hasOriginal, rfl⟩ := Option.map_eq_some_iff.mp hasPart
    exact ih i c orig hasChild hasOriginal

/-- An id whose expansion is a term without placeholders spells it out. -/
theorem Expands.spells (hx : p.Expands false id term.expansion) : p.Spells id term := by
  generalize he : term.expansion = ex at hx
  induction hx generalizing term with
  | hole => cases term; simp [Term.expansion] at he
  | link allowed => simp at allowed
  | @node id k ps hf arity _ ih =>
    obtain ⟨l, originals⟩ := term
    rw [Term.expansion] at he
    injection he with sameLabel sameParts
    subst sameLabel sameParts
    refine .intro hf (by simpa using arity) fun i c part hasChild hasPart => ?_
    exact ih i c part.expansion hasChild (by simp [hasPart]) rfl

theorem Means.lt_size (means : p.Means id term) : id.index < p.size := means.expands.lt_size

/-- A part of what an id means is what a part of its constant means. -/
theorem Means.part {c : ConstId} (means : p.Means id term) (hf : p.get id = .ok (some k))
    (mem : c ∈ k.children) : ∃ part, p.Means c part ∧ part.weight < term.weight := by
  cases means with
  | @intro _ x ps foundOther arity each =>
    obtain rfl : x = k := by
      rw [hf] at foundOther
      exact (Option.some.inj (Except.ok.inj foundOther)).symm
    obtain ⟨i, hi, here⟩ := List.getElem_of_mem mem
    have hasChild : x.children[i]? = some c := List.getElem?_eq_some_iff.mpr ⟨hi, here⟩
    obtain ⟨part, hasPart⟩ : ∃ part, ps[i]? = some part :=
      ⟨_, List.getElem?_eq_getElem (arity ▸ hi)⟩
    exact ⟨part, each i c part hasChild hasPart, Term.weight_lt_of_mem (List.mem_of_getElem? hasPart)⟩

/-- An id has a canonical twin that spells out what it means. -/
theorem Means.canonical (means : p.Means id term) :
    ∃ twin t, PoolM.canonical id p = .ok twin t ∧ t.Extends p ∧ t.Spells twin term := by
  obtain ⟨twin, t, ran, hg, hx⟩ := means.expands.canonical
  exact ⟨twin, t, ran, hg, hx.spells⟩

theorem not_leaves_expansion {hole : ConstId} (term : Term) : ¬Leaves hole term.expansion := by
  intro leaves
  generalize he : term.expansion = ex at leaves
  induction leaves generalizing term with
  | hole => cases term; simp [Term.expansion] at he
  | part mem _ ih =>
    obtain ⟨l, ps⟩ := term
    rw [Term.expansion] at he
    injection he with _ eq
    subst eq
    obtain ⟨part, -, rfl⟩ := List.mem_map.mp mem
    exact ih part rfl

/-- An id that means something depends on no open placeholder. -/
theorem Means.isResolved (means : p.Means id term) : p.isResolved id = .ok true := by
  obtain ⟨ans, ran, iff⟩ := means.expands.isResolved
  rw [ran, iff.mpr fun hole => not_leaves_expansion term]

/-- An id without placeholders is its own canonical twin. -/
theorem Spells.canonical (spells : p.Spells id term) :
    PoolM.canonical id p = .ok id p := spells.expands.canonical_self

theorem means_intern (k : Constant) {ps : List Term} (all : List.Forall₂ p.Means k.children ps) :
    (p.intern k).2.Means (p.intern k).1 (.node k.shell ps) :=
  .intro (get_of_value (Extends.entry?_intern p k)) all.length_eq fun i c part hasChild hasPart =>
      (getElem?_of_forall₂ all i c part hasChild hasPart).extends
        (Extends.intern p k)

/-- No constant stands in a pool twice, so that a term is spelled out by one id at most. -/
theorem Spells.eq {fst snd : ConstId} (spells : p.Spells fst term) (again : p.Spells snd term) :
    fst = snd :=
  spells.expands.eq again.expands

end Pool

end TreeCompiler
