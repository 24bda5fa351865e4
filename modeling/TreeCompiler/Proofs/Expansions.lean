import TreeCompiler.Proofs.PoolRuns

/-!
# Expansions and canonical ids

An id is expanded by following filled placeholders everywhere, down to the open ones. As long as no
constant contains itself, every id has a finite expansion. The canonical twin of an id has the same
expansion with no placeholder to follow, and there is one such id for an expansion.
-/

namespace TreeCompiler

open Step

variable {rounds : Nat} {α β : Type} {second : ConstId}

/-- A walk that never comes back to where it was needs no more rounds than there are places. Places
are told apart by a rank that goes down at every step. -/
theorem rounds_suffice (size : Nat) (Visits : Nat → Nat → Prop) (Next : Nat → Nat → Prop)
    (Ends : Nat → Nat → Prop) (hi : ∀ i rank, Visits i rank → i < size)
    (one : ∀ i fst second, Visits i fst → Visits i second → fst = second)
    (down : ∀ i j rank, Visits i rank → Next i j → ∃ lower < rank, Visits j lower)
    (step : ∀ rounds i rank, Visits i rank → (∀ j, Next i j → Ends rounds j) →
      Ends (rounds + 1) i) {i rank : Nat} (visits : Visits i rank) (enough : size ≤ rounds) :
    Ends rounds i := by
  -- the places on the way here are distinct from this one, as their ranks are higher
  suffices general : ∀ rank i, Visits i rank → ∀ (b : Finset Nat),
      (∀ place ∈ b, place < size ∧ ∃ higher > rank, Visits place higher) →
      ∀ rounds, size - b.card ≤ rounds → Ends rounds i from
    general rank i visits ∅ (by simp) rounds (by simpa using enough)
  intro rank
  induction rank using Nat.strong_induction_on with
  | _ rank ih =>
    intro i visits b hp rounds left
    have new : i ∉ b := by
      intro mem
      obtain ⟨-, higher, above, again⟩ := hp i mem
      have he := one i rank higher visits again
      omega
    have room : b.card < size := by
      have subset : insert i b ⊆ Finset.range size := by
        intro place mem
        rcases Finset.mem_insert.mp mem with rfl | mem
        · exact Finset.mem_range.mpr (hi _ _ visits)
        · exact Finset.mem_range.mpr (hp place mem).1
      have bound := Finset.card_le_card subset
      rw [Finset.card_insert_of_notMem new, Finset.card_range] at bound
      omega
    obtain ⟨rounds, rfl⟩ : ∃ fewer, rounds = fewer + 1 := ⟨rounds - 1, by omega⟩
    refine step rounds i rank visits fun j next => ?_
    obtain ⟨lower, hb, visitsNext⟩ := down i j rank visits next
    refine ih lower hb j visitsNext (insert i b) ?_ rounds ?_
    · intro place mem
      rcases Finset.mem_insert.mp mem with rfl | mem
      · exact ⟨hi _ _ visits, rank, hb, visits⟩
      · obtain ⟨bound, higher, above, again⟩ := hp place mem
        exact ⟨bound, higher, by omega, again⟩
    · rw [Finset.card_insert_of_notMem new]
      omega

/-- The constant without its parts: each is replaced by one and the same id. -/
def Constant.shell (k : Constant) : Constant :=
  Id.run (k.mapChildrenM fun _ => pure ⟨0⟩)

/-- The constant with other parts, as many as it has. -/
def Constant.withParts : Constant → List ConstId → Constant
  | .tuple _, ps => .tuple ps
  | .type (.parameterized _ _), base :: qs => .type (.parameterized base qs)
  | .type (.tuple _), ps => .type (.tuple ps)
  | .type (.nullable _), [base] => .type (.nullable base)
  | .type (.immutable _), [base] => .type (.immutable base)
  | k, _ => k

namespace Constant

theorem mapChildrenM_eq {m : Type → Type} [Monad m] [LawfulMonad m] (f : ConstId → m ConstId)
    (k : Constant) : k.mapChildrenM f = k.withParts <$> k.children.mapM f := by
  cases k with
  | tuple es =>
    simp only [mapChildrenM, children, bind_pure_comp]
    rfl
  | type ty =>
    cases ty with
    | tuple es =>
      simp only [mapChildrenM, TypeConstant.mapChildrenM, children, TypeConstant.children,
        bind_pure_comp, Functor.map_map]
      rfl
    | _ => simp [mapChildrenM, TypeConstant.mapChildrenM, children, TypeConstant.children, withParts]
  | _ => simp [mapChildrenM, children, withParts]

variable {k other : Constant} {ps : List ConstId}

theorem children_withParts (arity : ps.length = k.children.length) :
    (k.withParts ps).children = ps := by
  cases k with
  | type ty =>
    cases ty <;> rcases ps with _ | ⟨fst, _ | ⟨second, rest⟩⟩ <;>
      simp_all [children, TypeConstant.children, withParts]
  | _ => simp_all [children, withParts]

theorem shell_withParts (arity : ps.length = k.children.length) :
    (k.withParts ps).shell = k.shell := by
  cases k with
  | tuple es =>
    simp only [children] at arity
    simp [withParts, shell, mapChildrenM, arity]
  | type ty =>
    cases ty with
    | parameterized base qs =>
      cases ps with
      | nil => simp [children, TypeConstant.children] at arity
      | cons fst rest =>
        have arity : rest.length = qs.length := by
          simpa [children, TypeConstant.children] using arity
        simp [withParts, shell, mapChildrenM, TypeConstant.mapChildrenM, arity]
    | tuple es =>
      simp only [children, TypeConstant.children] at arity
      simp [withParts, shell, mapChildrenM, TypeConstant.mapChildrenM, arity]
    | nullable base | immutable base =>
      rcases ps with _ | ⟨fst, _ | ⟨second, rest⟩⟩ <;>
        simp [children, TypeConstant.children] at arity
      rfl
    | named name | category which => rfl
  | _ => rfl

/-- A constant is determined by its shell and its parts. -/
theorem eq_of_shell (eq : k.shell = other.shell)
    (sameChildren : k.children = other.children) : other = k := by
  have rebuild : ∀ k : Constant, k.shell.withParts k.children = k := by
    intro k
    cases k with
    | type ty => cases ty <;> rfl
    | _ => rfl
  rw [← rebuild other, ← rebuild k, eq, sameChildren]

end Constant

/-- What an id stands for, written out: open placeholders are holes. -/
inductive Expansion where
  | hole (id : ConstId)
  | node (l : Constant) (ps : List Expansion)

/-- The number of nodes and holes. -/
def Expansion.weight : Expansion → Nat
  | hole _ => 1
  | node _ ps => 1 + (ps.map weight).sum

/-- The expansion with another one in the place of a placeholder. -/
def Expansion.fill (whole : Expansion) (ph : ConstId) (i : Expansion) : Expansion :=
  match whole with
  | hole id => if id = ph then i else hole id
  | node l ps => node l (ps.map (·.fill ph i))

theorem Expansion.weight_lt_of_mem {l : Constant} {ps : List Expansion} {part : Expansion}
    (mem : part ∈ ps) : part.weight < (node l ps).weight := by
  have bound : part.weight ≤ (ps.map weight).sum :=
    List.single_le_sum (by simp) _ (List.mem_map.mpr ⟨part, mem, rfl⟩)
  rw [weight]
  omega

namespace Entry

/-- The id that a filled placeholder stands for. -/
def target? : Entry → Option ConstId
  | .placeholder _ target => target
  | .value _ => none

/-- What an entry is built from: the parts of a constant, the target of a placeholder. -/
def parts : Entry → List ConstId
  | .placeholder _ target => target.toList
  | .value k => k.children

end Entry

namespace Pool

/-- The parts of a constant, one by one. -/
theorem forall₂_of_getElem? {R : α → β → Prop} {as : List α} {bs : List β}
    (arity : as.length = bs.length)
    (each : ∀ (i : Nat) a b, as[i]? = some a → bs[i]? = some b → R a b) : List.Forall₂ R as bs := by
  refine List.forall₂_iff_get.mpr ⟨arity, fun i fst second => ?_⟩
  exact each i _ _ (by simp) (by simp)

theorem getElem?_of_forall₂ {R : α → β → Prop} {as : List α} {bs : List β}
    (all : List.Forall₂ R as bs) (i : Nat) (a : α) (b : β) (fst : as[i]? = some a)
    (second : bs[i]? = some b) : R a b := by
  obtain ⟨inFirst, rfl⟩ := List.getElem?_eq_some_iff.mp fst
  obtain ⟨inSecond, rfl⟩ := List.getElem?_eq_some_iff.mp second
  exact all.get inFirst inSecond

/-- A choice for every member of a list is a list of choices. -/
theorem exists_forall₂ {R : α → β → Prop} {as : List α} (all : ∀ a ∈ as, ∃ b, R a b) :
    ∃ bs, List.Forall₂ R as bs := by
  induction as with
  | nil => exact ⟨[], .nil⟩
  | cons a rest ih =>
    obtain ⟨b, h⟩ := all a (by simp)
    obtain ⟨bs, others⟩ := ih fun other mem => all other (by simp [mem])
    exact ⟨b :: bs, .cons h others⟩

/-- One id is built from another. -/
def Refers (p : Pool) (id part : ConstId) : Prop :=
  ∃ en, p.entry? id = some en ∧ part ∈ en.parts

/-- The expansion of an id, with filled placeholders on the way or without any. -/
inductive Expands (p : Pool) (through : Bool) : ConstId → Expansion → Prop
  | hole {id : ConstId} {name : String} (hf : p.entry? id = some (.placeholder name none)) :
      Expands p through id (.hole id)
  | link {id target : ConstId} {name : String} {expansion : Expansion} (allowed : through = true)
      (hf : p.entry? id = some (.placeholder name (some target)))
      (rest : Expands p through target expansion) : Expands p through id expansion
  | node {id : ConstId} {k : Constant} {ps : List Expansion}
      (hf : p.entry? id = some (.value k))
      (arity : k.children.length = ps.length)
      (each : ∀ (i : Nat) c part, k.children[i]? = some c →
        ps[i]? = some part → Expands p through c part) :
      Expands p through id (.node k.shell ps)

/-- How many filled placeholders lead from an id to what it stands for. -/
inductive Leads (p : Pool) : Nat → ConstId → ConstId → Prop
  | stop {id : ConstId} {en : Entry} (hf : p.entry? id = some en)
      (last : en.target? = none) : Leads p 0 id id
  | link {count : Nat} {id next target : ConstId} {name : String}
      (hf : p.entry? id = some (.placeholder name (some next)))
      (rest : Leads p count next target) : Leads p (count + 1) id target

namespace Leads

variable {p : Pool} {count : Nat} {id target : ConstId}

theorem last (hl : p.Leads count id target) :
    ∃ en, p.entry? target = some en ∧ en.target? = none := by
  induction hl with
  | stop hf last => exact ⟨_, hf, last⟩
  | link _ _ ih => exact ih

theorem unique (hl : p.Leads count id target) {other : Nat}
    (again : p.Leads other id second) : count = other := by
  induction hl generalizing other with
  | stop hf last =>
    cases again with
    | stop => rfl
    | link filled =>
      rw [hf] at filled
      cases filled
      simp [Entry.target?] at last
  | link filled _ ih =>
    cases again with
    | stop hf last =>
      rw [hf] at filled
      cases filled
      simp [Entry.target?] at last
    | link refilled rest =>
      rw [filled] at refilled
      obtain ⟨-, ⟨rfl⟩⟩ : _ = _ ∧ some _ = some _ := by simpa using refilled
      rw [ih rest]

/-- What an id stands for is found before the placeholders of the pool are used up. -/
theorem followWithin (hl : p.Leads count id target) (enough : p.size ≤ rounds) :
    p.followWithin rounds id = .ok target := by
  suffices general : ∀ count target, p.Leads count ⟨id.index⟩ target →
      p.followWithin rounds ⟨id.index⟩ = .ok target from general count target hl
  refine rounds_suffice p.size (fun i rank => ∃ target, p.Leads rank ⟨i⟩ target)
    (fun i j => ∃ name, p.entry? ⟨i⟩ = some (.placeholder name (some ⟨j⟩)))
    (fun rounds i => ∀ count target, p.Leads count ⟨i⟩ target →
      p.followWithin rounds ⟨i⟩ = .ok target) ?_ ?_ ?_ ?_ ⟨target, hl⟩ enough
  · rintro i rank ⟨target, hl⟩
    cases hl with
    | stop hf => exact lt_size_of_found hf
    | link hf => exact lt_size_of_found hf
  · rintro i fst second ⟨target, hl⟩ ⟨other, again⟩
    exact hl.unique again
  · rintro i j rank ⟨target, hl⟩ ⟨name, filled⟩
    cases hl with
    | stop hf last =>
      rw [hf] at filled
      cases filled
      simp [Entry.target?] at last
    | @link count _ next _ _ hf rest =>
      rw [hf] at filled
      cases filled
      exact ⟨count, Nat.lt_succ_self _, target, rest⟩
  · rintro rounds i rank - ends count target hl
    cases hl with
    | @stop _ en hf last =>
      match en with
      | .value k => simp [Pool.followWithin, hf]
      | .placeholder name none => simp [Pool.followWithin, hf]
    | @link count _ next _ _ hf rest =>
      simp only [Pool.followWithin, hf]
      exact ends next.index ⟨_, hf⟩ count target rest

theorem follow (hl : p.Leads count id target) : p.follow id = .ok target :=
  hl.followWithin (Nat.le_succ _)

/-- What is followed is a chain of placeholders. -/
theorem of_followWithin {p : Pool} {id target : ConstId}
    (followed : p.followWithin rounds id = .ok target) : ∃ count, p.Leads count id target := by
  induction rounds generalizing id with
  | zero => simp [Pool.followWithin] at followed
  | succ rounds ih =>
    unfold Pool.followWithin at followed
    cases hf : p.entry? id with
    | none => simp [hf] at followed
    | some en =>
      simp only [hf] at followed
      rcases en with k | ⟨name, _ | next⟩
      · obtain rfl := Except.ok.inj followed
        exact ⟨0, .stop hf rfl⟩
      · obtain rfl := Except.ok.inj followed
        exact ⟨0, .stop hf rfl⟩
      · obtain ⟨count, hl⟩ := ih followed
        exact ⟨count + 1, .link hf hl⟩

theorem expands (hl : p.Leads count id target) {expansion : Expansion}
    (hx : p.Expands true target expansion) : p.Expands true id expansion := by
  induction hl with
  | stop => exact hx
  | link hf _ ih => exact .link rfl hf (ih hx)

end Leads

namespace Expands

variable {p : Pool} {through : Bool} {id : ConstId} {expansion : Expansion}

theorem lt_size (hx : p.Expands through id expansion) : id.index < p.size := by
  cases hx with
  | hole hf => exact lt_size_of_found hf
  | link _ hf => exact lt_size_of_found hf
  | node hf => exact lt_size_of_found hf

theorem mono {later : Pool} (hg : later.Extends p)
    (hx : p.Expands through id expansion) : later.Expands through id expansion := by
  induction hx with
  | hole hf => exact .hole (hg.holds _ _ hf)
  | link allowed hf _ ih => exact .link allowed (hg.holds _ _ hf) ih
  | node hf arity _ ih => exact .node (hg.holds _ _ hf) arity ih

/-- What needs no placeholder may be expanded with placeholders, too. -/
theorem loosen (hx : p.Expands through id expansion) : p.Expands true id expansion := by
  induction hx with
  | hole hf => exact .hole hf
  | link _ hf _ ih => exact .link rfl hf ih
  | node hf arity _ ih => exact .node hf arity ih

theorem leads (hx : p.Expands through id expansion) :
    ∃ count target, p.Leads count id target ∧ p.Expands through target expansion := by
  induction hx with
  | hole hf => exact ⟨0, _, .stop hf rfl, .hole hf⟩
  | link allowed hf _ ih =>
    obtain ⟨count, target, hl, hx⟩ := ih
    exact ⟨count + 1, target, .link hf hl, hx⟩
  | node hf arity each _ => exact ⟨0, _, .stop hf rfl, .node hf arity each⟩

/-- The parts of a constant are expanded one by one. -/
theorem parts {k : Constant} (hf : p.entry? id = some (.value k))
    (hx : p.Expands through id expansion) :
    ∃ ps, expansion = .node k.shell ps ∧ List.Forall₂ (p.Expands through) k.children ps := by
  cases hx with
  | hole other =>
    rw [hf] at other
    simp at other
  | link _ other =>
    rw [hf] at other
    simp at other
  | @node _ other ps foundOther arity each =>
    obtain rfl : k = other := by simpa [hf] using foundOther
    exact ⟨ps, rfl, forall₂_of_getElem? arity each⟩

theorem of_parts {k : Constant} {ps : List Expansion} (hf : p.entry? id = some (.value k))
    (all : List.Forall₂ (p.Expands through) k.children ps) :
    p.Expands through id (.node k.shell ps) :=
  .node hf all.length_eq (getElem?_of_forall₂ all)

theorem unique (hx : p.Expands through id expansion) {other : Expansion}
    (again : p.Expands through id other) : expansion = other := by
  induction hx generalizing other with
  | hole hf =>
    cases again with
    | hole => rfl
    | link _ filled => simp [hf] at filled
    | node v => simp [hf] at v
  | link _ filled _ ih =>
    cases again with
    | hole hf => simp [hf] at filled
    | link _ refilled rest =>
      rw [filled] at refilled
      obtain ⟨-, ⟨rfl⟩⟩ : _ ∧ some _ = some _ := by simpa using refilled
      exact ih rest
    | node v => simp [v] at filled
  | @node id k ps hf arity _ ih =>
    obtain ⟨others, rfl, all⟩ := again.parts hf
    congr 1
    apply List.ext_getElem?
    intro i
    by_cases hi : i < k.children.length
    · have hasPart := List.getElem?_eq_getElem (arity ▸ hi)
      have hasOther := List.getElem?_eq_getElem (all.length_eq ▸ hi)
      have hasChild := List.getElem?_eq_getElem hi
      rw [hasPart, hasOther, ih i _ _ hasChild hasPart
        (getElem?_of_forall₂ all i _ _ hasChild hasOther)]
    · rw [List.getElem?_eq_none (by omega), List.getElem?_eq_none (all.length_eq ▸ by omega)]

/-- A part weighs less than the whole. -/
theorem part {k : Constant} {c : ConstId}
    (hx : p.Expands through id expansion) (hf : p.entry? id = some (.value k))
    (mem : c ∈ k.children) : ∃ part, p.Expands through c part ∧ part.weight < expansion.weight := by
  obtain ⟨ps, rfl, all⟩ := hx.parts hf
  obtain ⟨i, rfl⟩ := List.mem_iff_get.mp mem
  have hi : i < ps.length := all.length_eq ▸ i.isLt
  exact ⟨ps.get ⟨i, hi⟩, all.get i.isLt hi, Expansion.weight_lt_of_mem (List.get_mem _ _)⟩

end Expands

/-! ### Acyclic pools -/

/-- No constant contains itself, be it through filled placeholders. -/
def Acyclic (p : Pool) : Prop := ∀ id, ¬Relation.TransGen p.Refers id id

/-- The id is in the pool together with everything it is built from. -/
def Complete (p : Pool) (id : ConstId) : Prop :=
  ∀ part, Relation.ReflTransGen p.Refers id part → (p.entry? part).isSome

theorem Complete.part {p : Pool} {id part : ConstId} (complete : p.Complete id)
    (refers : p.Refers id part) : p.Complete part :=
  fun other hr => complete other (.head refers hr)

/-- A pool has no cycles if a number goes down from every entry to what it is built from. -/
theorem acyclic_of_rank {p : Pool} (rank : ConstId → Nat)
    (down : ∀ i < p.size, ∀ en ∈ p.entry? ⟨i⟩, ∀ part ∈ en.parts,
      rank part < rank ⟨i⟩) : p.Acyclic := by
  have lower : ∀ id part, p.Refers id part → rank part < rank id := by
    rintro ⟨i⟩ part ⟨en, hf, mem⟩
    exact down i (lt_size_of_found hf) en hf part mem
  have lowest : ∀ id part, Relation.TransGen p.Refers id part → rank part < rank id := by
    intro id part reaches
    induction reaches with
    | single refers => exact lower _ _ refers
    | tail _ refers ih => exact Nat.lt_trans (lower _ _ refers) ih
  intro id cycle
  exact Nat.lt_irrefl _ (lowest id id cycle)

theorem complete_of_closed {p : Pool}
    (closed : ∀ i < p.size, ∀ en ∈ p.entry? ⟨i⟩, ∀ part ∈ en.parts,
      part.index < p.size) {id : ConstId} (hi : id.index < p.size) : p.Complete id := by
  intro part reaches
  suffices hi : part.index < p.size by
    exact Option.isSome_iff_exists.mpr ⟨_, Array.getElem?_eq_getElem hi⟩
  induction reaches with
  | refl => exact hi
  | @tail mid _ _ refers ih =>
    obtain ⟨en, hf, mem⟩ := refers
    exact closed mid.index ih en hf _ mem

/-- In a pool without cycles one can go down from the constants to their parts. -/
theorem Acyclic.wellFounded {p : Pool} (acyclic : p.Acyclic) :
    WellFounded fun lower upper : Fin p.size => p.Refers ⟨upper⟩ ⟨lower⟩ := by
  let Below (lower upper : Fin p.size) : Prop :=
    Relation.TransGen p.Refers ⟨upper⟩ ⟨lower⟩
  have trans : IsTrans (Fin p.size) Below := ⟨fun _ _ _ fst second => second.trans fst⟩
  have irreflexive : Std.Irrefl Below := ⟨fun i cycle => acyclic ⟨i⟩ cycle⟩
  exact Subrelation.wf (fun refers => .single refers) (Finite.wellFounded_of_trans_of_irrefl Below)

theorem Acyclic.expands {p : Pool} (acyclic : p.Acyclic) {id : ConstId}
    (complete : p.Complete id) : ∃ expansion, p.Expands true id expansion := by
  suffices general : ∀ i : Fin p.size, p.Complete ⟨i⟩ →
      ∃ expansion, p.Expands true ⟨i⟩ expansion by
    obtain ⟨en, hf⟩ := Option.isSome_iff_exists.mp (complete id .refl)
    exact general ⟨id.index, lt_size_of_found hf⟩ complete
  intro i
  induction i using acyclic.wellFounded.induction with
  | _ i ih =>
    intro complete
    -- every part is in the pool, and so expanded
    have lower : ∀ part, p.Refers ⟨i⟩ part → ∃ expansion, p.Expands true part expansion := by
      intro part refers
      have completePart := complete.part refers
      obtain ⟨en, hf⟩ := Option.isSome_iff_exists.mp (completePart part .refl)
      exact ih ⟨part.index, lt_size_of_found hf⟩ refers completePart
    obtain ⟨en, hf⟩ := Option.isSome_iff_exists.mp (complete _ .refl)
    match en with
    | .placeholder name none => exact ⟨_, .hole hf⟩
    | .placeholder name (some target) =>
      obtain ⟨expansion, hx⟩ := lower target ⟨_, hf, by simp [Entry.parts]⟩
      exact ⟨expansion, .link rfl hf hx⟩
    | .value k =>
      obtain ⟨ps, all⟩ := exists_forall₂ fun c mem => lower c ⟨_, hf, mem⟩
      exact ⟨_, .of_parts hf all⟩

/-! ### Canonical twins -/

/-- A step that ends with an id which has an expansion and needs no placeholder for it. -/
def Unfolds (p : Pool) (step : PoolM ConstId) (expansion : Expansion) : Prop :=
  ∀ later : Pool, later.Extends p →
    ∃ id t, step later = .ok id t ∧ t.Extends later ∧ t.Expands false id expansion

theorem mapM_unfolds {p : Pool} {step : ConstId → PoolM ConstId} {children : List ConstId}
    {ps : List Expansion} (all : List.Forall₂ (fun c part => p.Unfolds (step c) part) children ps)
    {later : Pool} (hg : later.Extends p) :
    ∃ ids t, children.mapM step later = .ok ids t ∧ t.Extends later ∧
      List.Forall₂ (t.Expands false) ids ps := by
  induction all generalizing later with
  | nil => exact ⟨[], later, rfl, Extends.refl later, .nil⟩
  | cons fst _ ih =>
    obtain ⟨id, mid, ran, grownFirst, hx⟩ := fst later hg
    obtain ⟨ids, t, ranRest, grownRest, expandsRest⟩ := ih (grownFirst.trans hg)
    refine ⟨id :: ids, t, ?_, grownRest.trans grownFirst, .cons (hx.mono grownRest) expandsRest⟩
    rw [List.mapM_cons]
    exact bind_ok.mpr ⟨id, mid, ran, bind_ok.mpr ⟨ids, t, ranRest, rfl⟩⟩

theorem canonicalWithin_of_open {p : Pool} {id target : ConstId} {name : String}
    (followed : p.follow id = .ok target) (hf : p.entry? target = some (.placeholder name none)) :
    PoolM.canonicalWithin (rounds + 1) id p = .ok target p := by
  refine bind_ok.mpr ⟨target, p, PoolM.read_ok.mpr ⟨followed, rfl⟩, ?_⟩
  exact bind_ok.mpr ⟨.placeholder name none, p, PoolM.read_ok.mpr ⟨by simp [Pool.entry, hf], rfl⟩, rfl⟩

/-- A constant is rebuilt from the twins of its parts, and interned if that made it another. -/
theorem canonicalWithin_of_value {p mid : Pool} {id target : ConstId}
    {k rebuilt : Constant} (followed : p.follow id = .ok target)
    (hf : p.entry? target = some (.value k))
    (ran : k.mapChildrenM (PoolM.canonicalWithin rounds) p = .ok rebuilt mid) :
    PoolM.canonicalWithin (rounds + 1) id p = if rebuilt = k then .ok target mid
      else .ok (mid.intern rebuilt).1 (mid.intern rebuilt).2 := by
  have readFollow : PoolM.read (·.follow id) p = .ok target p :=
    PoolM.read_ok.mpr ⟨followed, rfl⟩
  have readEntry : PoolM.read (·.entry target) p = .ok (.value k) p :=
    PoolM.read_ok.mpr ⟨by simp [Pool.entry, hf], rfl⟩
  unfold PoolM.canonicalWithin
  simp only [Bind.bind, EStateM.bind, readFollow, readEntry, ran]
  by_cases eq : rebuilt = k
  · rw [if_pos eq, if_pos eq]
    rfl
  · rw [if_neg eq, if_neg eq]
    rfl

theorem canonicalWithin_node {p : Pool} {count : Nat} {id target : ConstId}
    {k : Constant} {ps : List Expansion} (hl : p.Leads count id target)
    (hf : p.entry? target = some (.value k))
    (all : List.Forall₂ (fun c part => p.Unfolds (PoolM.canonicalWithin rounds c) part) k.children ps) :
    p.Unfolds (PoolM.canonicalWithin (rounds + 1) id) (.node k.shell ps) := by
  intro later hg
  obtain ⟨ids, mid, ran, grownChildren, hx⟩ := mapM_unfolds all hg
  have arity : ids.length = k.children.length :=
    hx.length_eq.trans all.length_eq.symm
  have rebuilt : k.mapChildrenM (PoolM.canonicalWithin rounds) later =
      .ok (k.withParts ids) mid := by
    rw [Constant.mapChildrenM_eq]
    exact map_ok.mpr ⟨ids, ran, rfl⟩
  -- the rebuilt constant has the expansion wherever it stands
  have expanded : ∀ (twin : ConstId) (t : Pool), t.Extends mid →
      t.entry? twin = some (.value (k.withParts ids)) →
      t.Expands false twin (.node k.shell ps) := by
    intro twin t grownAfter here
    rw [← Constant.shell_withParts arity]
    apply Expands.of_parts here
    rw [Constant.children_withParts arity]
    exact hx.imp fun _ _ hx => hx.mono grownAfter
  rw [canonicalWithin_of_value (hg.follow hl.follow) (hg.holds target _ hf) rebuilt]
  by_cases eq : k.withParts ids = k
  · rw [if_pos eq]
    refine ⟨target, mid, rfl, grownChildren, expanded target mid (Extends.refl _) ?_⟩
    rw [eq]
    exact grownChildren.holds target _ (hg.holds target _ hf)
  · rw [if_neg eq]
    exact ⟨_, _, rfl, (Extends.intern mid _).trans grownChildren,
      expanded _ _ (Extends.intern mid _) (Extends.entry?_intern mid _)⟩

theorem canonicalWithin_hole {p : Pool} {count : Nat} {id target : ConstId} {name : String}
    (hl : p.Leads count id target) (hf : p.entry? target = some (.placeholder name none)) :
    p.Unfolds (PoolM.canonicalWithin (rounds + 1) id) (.hole target) := by
  intro later hg
  have here := hg.holds target _ hf
  exact ⟨target, later, canonicalWithin_of_open (hg.follow hl.follow) here, Extends.refl later, .hole here⟩

theorem Expands.of_leads {p : Pool} {through : Bool} {count : Nat} {id target : ConstId}
    {expansion : Expansion} (hx : p.Expands through id expansion)
    (hl : p.Leads count id target) : p.Expands through target expansion := by
  obtain ⟨steps, last, leadsLast, expandsLast⟩ := hx.leads
  obtain rfl : target = last := Except.ok.inj (hl.follow.symm.trans leadsLast.follow)
  exact expandsLast

/-- The walks over what an id stands for need no more rounds than the pool has entries. Each round
goes from an id to the parts of the constant it leads to, and is told apart by the weight of its
expansion. -/
theorem Expands.walk {p : Pool} {through : Bool} {id : ConstId} {expansion : Expansion}
    (hx : p.Expands through id expansion) (Ends : Nat → ConstId → Prop)
    (ofOpen : ∀ rounds id target name count, p.Leads count id target →
      p.entry? target = some (.placeholder name none) → Ends (rounds + 1) id)
    (ofValue : ∀ rounds id target k count, p.Leads count id target →
      p.entry? target = some (.value k) → (∀ c ∈ k.children, Ends rounds c) →
      Ends (rounds + 1) id) (enough : p.size ≤ rounds) : Ends rounds id := by
  refine rounds_suffice p.size
    (fun i rank => ∃ expansion, p.Expands through ⟨i⟩ expansion ∧ expansion.weight = rank)
    (fun i j => ∃ count target k, p.Leads count ⟨i⟩ target ∧
      p.entry? target = some (.value k) ∧ ⟨j⟩ ∈ k.children)
    (fun rounds i => Ends rounds ⟨i⟩) ?_ ?_ ?_ ?_ ⟨expansion, hx, rfl⟩ enough
  · rintro i rank ⟨expansion, hx, -⟩
    exact hx.lt_size
  · rintro i fst second ⟨expansion, hx, rfl⟩ ⟨other, again, rfl⟩
    rw [hx.unique again]
  · rintro i j rank ⟨expansion, hx, rfl⟩ ⟨count, target, k, hl, hf, mem⟩
    obtain ⟨part, expandsPart, lighter⟩ := (hx.of_leads hl).part hf mem
    exact ⟨part.weight, lighter, part, expandsPart, rfl⟩
  · rintro rounds i rank ⟨expansion, hx, -⟩ ends
    obtain ⟨count, target, hl, -⟩ := hx.leads
    obtain ⟨en, hf, last⟩ := hl.last
    match en with
    | .placeholder name none => exact ofOpen rounds _ target name count hl hf
    | .value k =>
      exact ofValue rounds _ target k count hl hf fun c mem =>
        ends c.index ⟨count, target, k, hl, hf, mem⟩

/-- The walk for the canonical twin of an id ends before as many rounds as the pool has entries. -/
theorem Expands.canonicalWithin {p : Pool} {id : ConstId} {expansion : Expansion}
    (hx : p.Expands true id expansion) (enough : p.size ≤ rounds) :
    p.Unfolds (PoolM.canonicalWithin rounds id) expansion := by
  refine hx.walk (fun rounds id => ∀ expansion, p.Expands true id expansion →
    p.Unfolds (PoolM.canonicalWithin rounds id) expansion) ?_ ?_ enough expansion hx
  · intro rounds id target name count hl hf expansion hx
    obtain rfl := (hx.of_leads hl).unique (.hole hf)
    exact canonicalWithin_hole hl hf
  · intro rounds id target k count hl hf ends expansion hx
    obtain ⟨ps, rfl, all⟩ := (hx.of_leads hl).parts hf
    refine canonicalWithin_node hl hf (forall₂_of_getElem? all.length_eq ?_)
    intro i c part hasChild hasPart
    exact ends c (List.mem_of_getElem? hasChild) part (getElem?_of_forall₂ all i c part hasChild hasPart)

/-- An id has a canonical twin, which has its expansion and needs no placeholder for it. -/
theorem Expands.canonical {p : Pool} {id : ConstId} {expansion : Expansion}
    (hx : p.Expands true id expansion) :
    ∃ twin t, PoolM.canonical id p = .ok twin t ∧ t.Extends p ∧ t.Expands false twin expansion :=
  hx.canonicalWithin (Nat.le_succ _) p (Extends.refl p)

/-- The open placeholders of an expansion. -/
inductive Leaves (ph : ConstId) : Expansion → Prop
  | hole : Leaves ph (.hole ph)
  | part {l : Constant} {ps : List Expansion} {part : Expansion} (mem : part ∈ ps)
      (leaves : Leaves ph part) : Leaves ph (.node l ps)

theorem get_of_leads {p : Pool} {count : Nat} {id target : ConstId} {k : Constant}
    (hl : p.Leads count id target) (hf : p.entry? target = some (.value k)) :
    p.get id = .ok (some k) := by
  simp [get, hl.follow, hf, entry, bind, Except.bind, pure, Except.pure]

theorem allM_answers {check : ConstId → Except PoolError Bool} {P : Expansion → Prop}
    {children : List ConstId} {ps : List Expansion}
    (all : List.Forall₂ (fun c part => ∃ ans, check c = .ok ans ∧ (ans = true ↔ P part)) children ps) :
    ∃ ans, children.allM check = .ok ans ∧ (ans = true ↔ ∀ part ∈ ps, P part) := by
  induction all with
  | nil => exact ⟨true, rfl, by simp⟩
  | cons here _ ih =>
    obtain ⟨ans, ran, iff⟩ := here
    obtain ⟨others, ranRest, iffRest⟩ := ih
    cases ans with
    | false => exact ⟨false, by simp [List.allM, ran, bind, Except.bind, pure, Except.pure], by simp_all⟩
    | true => exact ⟨others, by simp [List.allM, ran, ranRest, bind, Except.bind], by simp_all⟩

/-- It is known of every id that can be written out whether it depends on an open placeholder. -/
theorem Expands.isResolved {p : Pool} {id : ConstId} {expansion : Expansion}
    (hx : p.Expands true id expansion) :
    ∃ ans, p.isResolved id = .ok ans ∧ (ans = true ↔ ∀ hole, ¬Leaves hole expansion) := by
  refine hx.walk (fun rounds id => ∀ expansion, p.Expands true id expansion → ∃ ans,
    p.isResolvedWithin rounds id = .ok ans ∧ (ans = true ↔ ∀ hole, ¬Leaves hole expansion))
    ?_ ?_ (Nat.le_succ _) expansion hx
  · intro rounds id target name count hl hf expansion hx
    obtain rfl := (hx.of_leads hl).unique (.hole hf)
    refine ⟨false, ?_, by simpa using ⟨target, Leaves.hole⟩⟩
    simp [isResolvedWithin, get, hl.follow, hf, entry, bind, Except.bind, pure, Except.pure]
  · intro rounds id target k count hl hf ends expansion hx
    obtain ⟨ps, rfl, all⟩ := (hx.of_leads hl).parts hf
    obtain ⟨ans, ran, iff⟩ := allM_answers (forall₂_of_getElem? all.length_eq
      fun i c part hasChild hasPart => ends c (List.mem_of_getElem? hasChild) part
        (getElem?_of_forall₂ all i c part hasChild hasPart))
    refine ⟨ans, ?_, iff.trans ⟨fun whole hole leaves => ?_, fun whole part mem hole leaves =>
      whole hole (.part mem leaves)⟩⟩
    · simpa [isResolvedWithin, get_of_leads hl hf, bind, Except.bind] using ran
    · cases leaves with
      | part mem leaves => exact whole _ mem hole leaves

/-- No constant stands in a pool twice, so that one id has an expansion without needing placeholders
for it. -/
theorem Expands.eq {p : Pool} {fst : ConstId} {expansion : Expansion}
    (hx : p.Expands false fst expansion)
    (again : p.Expands false second expansion) : fst = second := by
  induction hx generalizing second with
  | hole hf =>
    cases again with
    | hole => rfl
    | link allowed => simp at allowed
  | link allowed => simp at allowed
  | @node fst k ps hf arity _ ih =>
    generalize he : Expansion.node k.shell ps = expansion at again
    cases again with
    | hole => simp at he
    | link allowed => simp at allowed
    | @node _ other others foundOther arityOther eachOther =>
      injection he with sameShell sameParts
      subst sameParts
      have sameChildren : k.children = other.children := by
        apply List.ext_getElem (by omega)
        intro i inFirst inSecond
        have hasPart := List.getElem?_eq_getElem (arity ▸ inFirst)
        exact ih i _ _ (List.getElem?_eq_getElem inFirst) hasPart
          (eachOther i _ _ (List.getElem?_eq_getElem inSecond) hasPart)
      obtain rfl := Constant.eq_of_shell sameShell sameChildren
      exact p.unique fst second other hf foundOther

theorem Expands.not_filled {p : Pool} {id : ConstId} {expansion : Expansion}
    (hx : p.Expands false id expansion) (name : String) (target : ConstId) :
    p.entry? id ≠ some (.placeholder name (some target)) := by
  intro hf
  cases hx with
  | hole other => simp [hf] at other
  | link allowed => simp at allowed
  | node other => simp [hf] at other

theorem Expands.eq_of_leads {p : Pool} {count : Nat} {id target : ConstId} {expansion : Expansion}
    (hx : p.Expands false id expansion) (hl : p.Leads count id target) : target = id := by
  cases hl with
  | stop => rfl
  | link hf => exact absurd hf (hx.not_filled _ _)

/-- The twin of an id without placeholders is the id, and nothing is interned to find it. -/
theorem Expands.canonical_self {p : Pool} {id : ConstId} {expansion : Expansion}
    (hx : p.Expands false id expansion) : PoolM.canonical id p = .ok id p := by
  refine hx.walk (fun rounds id => ∀ expansion, p.Expands false id expansion →
    PoolM.canonicalWithin rounds id p = .ok id p) ?_ ?_ (Nat.le_succ _) expansion hx
  · intro rounds id target name count hl hf expansion hx
    obtain rfl := hx.eq_of_leads hl
    exact canonicalWithin_of_open hl.follow hf
  · intro rounds id target k count hl hf ends expansion hx
    obtain rfl := hx.eq_of_leads hl
    have all : ∀ children : List ConstId, (∀ c ∈ children, c ∈ k.children) →
        children.mapM (PoolM.canonicalWithin rounds) p = .ok children p := by
      intro children hi
      induction children with
      | nil => rfl
      | cons c rest ih =>
        obtain ⟨part, expandsPart, -⟩ := hx.part hf (hi c (by simp))
        rw [List.mapM_cons]
        exact bind_ok.mpr ⟨c, p, ends c (hi c (by simp)) part expandsPart,
          bind_ok.mpr ⟨rest, p, ih fun other mem => hi other (by simp [mem]), rfl⟩⟩
    have eq : k.withParts k.children = k :=
      (Constant.eq_of_shell (Constant.shell_withParts rfl) (Constant.children_withParts rfl)).symm
    have rebuilt : k.mapChildrenM (PoolM.canonicalWithin rounds) p = .ok k p := by
      rw [Constant.mapChildrenM_eq]
      exact map_ok.mpr ⟨_, all k.children fun _ mem => mem, eq⟩
    rw [canonicalWithin_of_value hl.follow hf rebuilt, if_pos rfl]

/-- What an id without placeholders is built from has no filled placeholders either. -/
theorem Expands.reaches {p : Pool} {id part : ConstId} {expansion : Expansion}
    (hx : p.Expands false id expansion) (reaches : Relation.ReflTransGen p.Refers id part) :
    ∃ expansion, p.Expands false part expansion := by
  induction reaches with
  | refl => exact ⟨expansion, hx⟩
  | tail _ refers ih =>
    obtain ⟨whole, hx⟩ := ih
    obtain ⟨en, hf, mem⟩ := refers
    match en with
    | .placeholder name none => simp [Entry.parts] at mem
    | .placeholder name (some target) => exact absurd hf (hx.not_filled name target)
    | .value k =>
      obtain ⟨part, expandsPart, -⟩ := hx.part hf mem
      exact ⟨part, expandsPart⟩

/-- The canonical twins of two ids, in a pool that holds them and everything they are built from:
they have the expansions of the two ids, no filled placeholder is left in them, they are their own
twins, and they are the same id exactly if the two ids have the same expansion. -/
theorem canonical_eq_iff_expansion (calls : List Call) (acyclic : (empty.run calls).Acyclic)
    {first second : ConstId} (completeFirst : (empty.run calls).Complete first)
    (completeSecond : (empty.run calls).Complete second) :
    ∃ left right leftTwin rightTwin middle after,
      (empty.run calls).Expands true first left ∧ (empty.run calls).Expands true second right ∧
      PoolM.canonical first (empty.run calls) = .ok leftTwin middle ∧
      PoolM.canonical second middle = .ok rightTwin after ∧
      after.Expands true leftTwin left ∧ after.Expands true rightTwin right ∧
      (leftTwin = rightTwin ↔ left = right) ∧
      PoolM.canonical leftTwin middle = .ok leftTwin middle ∧
      PoolM.canonical rightTwin after = .ok rightTwin after ∧
      ∀ twin ∈ [leftTwin, rightTwin], ∀ part, Relation.ReflTransGen after.Refers twin part →
        ∀ name target, after.entry? part ≠ some (.placeholder name (some target)) := by
  obtain ⟨left, expandsLeft⟩ := acyclic.expands completeFirst
  obtain ⟨right, expandsRight⟩ := acyclic.expands completeSecond
  obtain ⟨leftTwin, middle, ranLeft, grownLeft, unfoldsLeft⟩ := expandsLeft.canonical
  obtain ⟨rightTwin, after, ranRight, grownRight, unfoldsRight⟩ := (expandsRight.mono grownLeft).canonical
  have stays := unfoldsLeft.mono grownRight
  refine ⟨left, right, leftTwin, rightTwin, middle, after, expandsLeft, expandsRight, ranLeft, ranRight,
    stays.loosen, unfoldsRight.loosen, ?_, unfoldsLeft.canonical_self,
    unfoldsRight.canonical_self, ?_⟩
  · constructor
    · rintro rfl
      exact stays.unique unfoldsRight
    · rintro rfl
      exact stays.eq unfoldsRight
  · intro twin member part reaches
    have unfolds : ∃ expansion, after.Expands false twin expansion := by
      rcases List.mem_cons.mp member with rfl | member
      · exact ⟨left, stays⟩
      · rw [List.mem_singleton.mp member]
        exact ⟨right, unfoldsRight⟩
    obtain ⟨expansion, unfolds⟩ := unfolds
    obtain ⟨other, unfoldsPart⟩ := unfolds.reaches reaches
    exact unfoldsPart.not_filled

end Pool

/-- A class that is named before it is known, and the nullable type of it built in both ways. -/
def namedEarly : List Pool.Call :=
  [.newPlaceholder "Count", .intern (.type (.named "Int")), .intern (.type (.nullable ⟨0⟩)),
    .fill ⟨0⟩ ⟨1⟩, .intern (.type (.nullable ⟨1⟩))]

/-- The pool that comes of it. -/
def earlyPool : Pool := Pool.empty.run namedEarly

/-- A number goes down from the placeholder to the class, and from a type to what it is made of. -/
theorem earlyPool_acyclic : earlyPool.Acyclic :=
  Pool.acyclic_of_rank (fun id => [1, 0, 2, 1].getD id.index 0) (by decide)

theorem earlyPool_complete {id : ConstId} (hi : id.index < earlyPool.size) :
    earlyPool.Complete id :=
  Pool.complete_of_closed (by decide) hi

theorem earlyPool_expands : ∃ expansion, earlyPool.Expands true ⟨2⟩ expansion ∧
    earlyPool.Expands true ⟨3⟩ expansion := by
  have int : earlyPool.Expands true ⟨1⟩ (.node (Constant.type (.named "Int")).shell []) :=
    .of_parts rfl .nil
  have count : earlyPool.Expands true ⟨0⟩ (.node (Constant.type (.named "Int")).shell []) :=
    .link rfl rfl int
  have fst : earlyPool.Expands true ⟨2⟩ (.node (Constant.type (.nullable ⟨0⟩)).shell _) :=
    .of_parts rfl (.cons count .nil)
  have second : earlyPool.Expands true ⟨3⟩ (.node (Constant.type (.nullable ⟨1⟩)).shell _) :=
    .of_parts rfl (.cons int .nil)
  exact ⟨_, fst, second⟩

/-- Both nullable types have the same canonical twin. -/
theorem namedEarly_twins : (Pool.empty.run namedEarly).Acyclic ∧
      (Pool.empty.run namedEarly).Complete ⟨2⟩ ∧ (Pool.empty.run namedEarly).Complete ⟨3⟩ ∧
      ∃ twin middle after, PoolM.canonical ⟨2⟩ (Pool.empty.run namedEarly) = .ok twin middle ∧
        PoolM.canonical ⟨3⟩ middle = .ok twin after := by
  have complete : ∀ id : ConstId, id.index < 4 → (Pool.empty.run namedEarly).Complete id :=
    fun id inside => earlyPool_complete inside
  refine ⟨earlyPool_acyclic, complete ⟨2⟩ (by decide), complete ⟨3⟩ (by decide), ?_⟩
  obtain ⟨left, right, leftTwin, rightTwin, middle, after, expandsLeft, expandsRight, ranLeft, ranRight,
    -, -, same, -⟩ := Pool.canonical_eq_iff_expansion namedEarly earlyPool_acyclic
      (complete ⟨2⟩ (by decide)) (complete ⟨3⟩ (by decide))
  obtain ⟨expansion, expandsFirst, expandsSecond⟩ := earlyPool_expands
  have equal : left = right :=
    (expandsLeft.unique expandsFirst).trans (expandsSecond.unique expandsRight)
  obtain rfl := same.mpr equal
  exact ⟨leftTwin, middle, after, ranLeft, ranRight⟩

end TreeCompiler
