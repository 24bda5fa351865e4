import TreeCompiler.Proofs.ResolvedTypes

/-!
# Placeholders

A placeholder gets its target once. What it is filled with is never a filled placeholder and never
the placeholder itself, so that following targets always ends, whatever is called on a pool. As long
as placeholders are not filled with constants that contain them, every id has a canonical twin.
-/

namespace TreeCompiler

open Step

variable {expansion : Expansion}

variable {n : Nat} {error : PoolError} {P : Pool → Prop} {through : Bool} {k : Constant}

namespace Pool

variable {p b after later : Pool} {id target placeholder : ConstId}

/-- From every id of the pool, filled placeholders lead to a value or to an open placeholder. -/
def LinksEnd (p : Pool) : Prop :=
  ∀ id, id.index < p.size → ∃ count target, p.Leads count id target

theorem Leads.extends {count : Nat} (hg : after.Extends b)
    (hl : b.Leads count id target) : after.Leads count id target := by
  induction hl with
  | stop found last => exact .stop (hg.holds _ _ found) last
  | link found _ ih => exact .link (hg.holds _ _ found) ih

theorem LinksEnd.push (ends : p.LinksEnd) {en : Entry} (last : en.target? = none)
    (added : after.entries = p.entries.push en) : after.LinksEnd := by
  intro id hi
  by_cases new : id = ⟨p.size⟩
  · exact ⟨0, id, .stop (by rw [entry?_of_push added, if_pos new]) last⟩
  · have ne : id.index ≠ p.size := fun eq => new (by cases id; simpa using eq)
    rw [size_of_push added] at hi
    obtain ⟨count, target, hl⟩ := ends id (by omega)
    exact ⟨count, target, hl.extends (.of_push added)⟩

theorem interned_linksEnd : PoolM.Interned LinksEnd := by
  intro p k ends
  rcases p.intern_cases k with ⟨id, -, eq⟩ | ⟨-, -, added⟩
  · rw [eq]
    exact ends
  · exact ends.push rfl added

/-- A chain that ended at the placeholder now goes on to the placeholder's target and ends there. -/
theorem LinksEnd.setTarget (ends : p.LinksEnd) {name : String} {en : Entry}
    (ho : p.entry? placeholder = some (.placeholder name none))
    (found : p.entry? target = some en) (last : en.target? = none)
    (ne : target ≠ placeholder) : (p.setTarget placeholder target).LinksEnd := by
  have entries := entry?_setTarget ho target
  have stops : (p.setTarget placeholder target).Leads 0 target target :=
    .stop (by rw [entries, if_neg ne, found]) last
  intro id hi
  obtain ⟨count, hr, hl⟩ := ends id (by simpa [Pool.setTarget, Store.setTarget, Pool.size] using hi)
  clear hi
  induction hl with
  | @stop id x here lastOther =>
    by_cases eq : id = placeholder
    · exact ⟨1, target, .link (by rw [entries, if_pos eq]) stops⟩
    · exact ⟨0, id, .stop (by rw [entries, if_neg eq, here]) lastOther⟩
  | @link _ id next _ _ here rest ih =>
    have x : id ≠ placeholder := by
      rintro rfl
      simp [ho] at here
    obtain ⟨count, hr, hl⟩ := ih
    exact ⟨count + 1, hr, .link (by rw [entries, if_neg x, here]) hl⟩

/-! ### What canonical twins are -/

/-- A filled placeholder has the canonical twin of its target. -/
theorem canonical_of_link {name : String} {next : ConstId} (ends : p.LinksEnd)
    (filled : p.entry? id = some (.placeholder name (some next)))
    (hi : next.index < p.size) : PoolM.canonical id p = PoolM.canonical next p := by
  obtain ⟨count, target, hle⟩ := ends next hi
  have followed : p.follow id = p.follow next := by
    rw [hle.follow, (Leads.link filled hle).follow]
  have he : PoolM.read (·.follow id) p = PoolM.read (·.follow next) p := by
    have hl : PoolM.read (·.follow next) p = .ok target p := PoolM.read_of_ok hle.follow
    rw [hl]
    exact PoolM.read_of_ok (followed.trans hle.follow)
  show PoolM.canonicalWithin (p.size + 1) id p = PoolM.canonicalWithin (p.size + 1) next p
  simp only [PoolM.canonicalWithin, bind, EStateM.bind, he]

/-! ### Filling a placeholder -/

theorem fill_of_not_placeholder (target : ConstId)
    (x : ∀ name old, p.entry? placeholder ≠ some (.placeholder name old)) :
    ∃ error, PoolM.fill placeholder target p = .error error p := by
  cases found : p.entry? placeholder with
  | none =>
    have absent : p.entry placeholder = .error (.absent placeholder) := by
      simp [Pool.entry, found]
    exact ⟨_, bind_of_error (PoolM.read_of_error absent)⟩
  | some en =>
    cases en with
    | placeholder name old => exact absurd found (x name old)
    | value k =>
      have hp : p.entry placeholder = .ok (.value k) := by simp [Pool.entry, found]
      refine ⟨.notPlaceholder placeholder, ?_⟩
      exact (bind_of_ok (PoolM.read_of_ok hp)).trans rfl

section Fill

variable {mid : Pool} {name : String} {old : Option ConstId}
  (found : p.entry? placeholder = some (.placeholder name old))

include found

theorem entry_of_placeholder : p.entry placeholder = .ok (.placeholder name old) := by
  simp [Pool.entry, found]

theorem fill_of_error (stopped : PoolM.canonical target p = .error error mid) :
    PoolM.fill placeholder target p = .error error mid :=
  (bind_of_ok (PoolM.read_of_ok (entry_of_placeholder found))).trans (bind_of_error stopped)

theorem fill_of_self (ran : PoolM.canonical target p = .ok placeholder mid) :
    PoolM.fill placeholder target p = .error (.selfReference placeholder name) mid := by
  refine (bind_of_ok (PoolM.read_of_ok (entry_of_placeholder found))).trans ?_
  refine (bind_of_ok ran).trans ?_
  rw [if_pos rfl]
  rfl

end Fill

/-- What is done with the twin of another target for a placeholder that has one. -/
def compareTarget (placeholder : ConstId) (name : String) (old twin : ConstId) : PoolM Unit :=
  if old = twin then pure () else do
    let previous ← PoolM.canonical old
    if previous = twin then pure () else throw (.conflict placeholder name previous twin)

theorem always_compareTarget (canonical : ∀ id, Always P (PoolM.canonical id))
    (placeholder : ConstId) (name : String) (old twin : ConstId) :
    Always P (compareTarget placeholder name old twin) := by
  unfold compareTarget
  split
  · exact Always.pure _
  · refine Always.bind (canonical old) fun previous => ?_
    split
    · exact Always.pure _
    · exact Always.throw _

theorem compareTarget_ok {name : String} {old twin : ConstId} :
    compareTarget placeholder name old twin b = .ok () after ↔ old = twin ∧ after = b ∨
        old ≠ twin ∧ PoolM.canonical old b = .ok twin after := by
  unfold compareTarget
  by_cases eq : old = twin
  · simp [eq, eq_comm]
  · rw [if_neg eq, bind_ok]
    constructor
    · rintro ⟨previous, last, ran, ended⟩
      split at ended
      · rename_i he
        cases ended
        exact .inr ⟨eq, he ▸ ran⟩
      · simp at ended
    · rintro (⟨he, -⟩ | ⟨-, ran⟩)
      · exact absurd he eq
      · exact ⟨twin, after, ran, by rw [if_pos rfl]; rfl⟩

section Fill

variable {mid : Pool} {name : String} {old twin : ConstId}

theorem fill_of_open (found : p.entry? placeholder = some (.placeholder name none))
    (ran : PoolM.canonical target p = .ok twin mid) (ne : twin ≠ placeholder) :
    PoolM.fill placeholder target p = .ok () (mid.setTarget placeholder twin) := by
  refine (bind_of_ok (PoolM.read_of_ok (entry_of_placeholder found))).trans ?_
  refine (bind_of_ok ran).trans ?_
  rw [if_neg ne]
  rfl

variable (found : p.entry? placeholder = some (.placeholder name (some old)))
  (ran : PoolM.canonical target p = .ok twin mid) (ne : twin ≠ placeholder)

include found ran ne

theorem fill_of_filled : PoolM.fill placeholder target p =
    compareTarget placeholder name old twin mid := by
  refine (bind_of_ok (PoolM.read_of_ok (entry_of_placeholder found))).trans ?_
  refine (bind_of_ok ran).trans ?_
  rw [if_neg ne]
  simp only [ne_eq, ite_not]
  rfl

end Fill

/-- Filling a placeholder looks for canonical twins, and it may set the target of an open
placeholder. -/
theorem fill_cases (canonical : ∀ id, Always P (PoolM.canonical id)) (h : P p)
    (placeholder target : ConstId) : P (endState (PoolM.fill placeholder target p)) ∨
      ∃ name twin mid, p.entry? placeholder = some (.placeholder name none) ∧
        PoolM.canonical target p = .ok twin mid ∧ twin ≠ placeholder ∧ P mid ∧
        PoolM.fill placeholder target p = .ok () (mid.setTarget placeholder twin) := by
  by_cases isPlaceholder : ∃ name old, p.entry? placeholder = some (.placeholder name old)
  swap
  · obtain ⟨error, refused⟩ := fill_of_not_placeholder target
      fun name old found => isPlaceholder ⟨name, old, found⟩
    rw [refused]
    exact .inl h
  obtain ⟨name, old, found⟩ := isPlaceholder
  have kept := canonical target p h
  cases ran : PoolM.canonical target p with
  | error error mid =>
    rw [ran] at kept
    rw [fill_of_error found ran]
    exact .inl kept
  | ok twin mid =>
    rw [ran] at kept
    by_cases eq : twin = placeholder
    · subst eq
      rw [fill_of_self found ran]
      exact .inl kept
    · cases old with
      | none => exact .inr ⟨name, twin, mid, found, rfl, eq, kept, fill_of_open found ran eq⟩
      | some old =>
        rw [fill_of_filled found ran eq]
        exact .inl (always_compareTarget canonical placeholder name old twin mid kept)

theorem LinksEnd.fill (ends : p.LinksEnd) (placeholder target : ConstId) :
    (endState (PoolM.fill placeholder target p)).LinksEnd := by
  rcases fill_cases (PoolM.always_canonical interned_linksEnd) ends placeholder target with
    kept | ⟨name, twin, mid, found, ran, ne, kept, filled⟩
  · exact kept
  · have hg := (PoolM.grows_canonical target p).keeps p twin mid (Extends.refl p) ran
    rw [filled]
    -- the twin is not a filled placeholder, so that no chain goes on behind it
    obtain ⟨expansion, -, hx⟩ := expands_of_canonical ran
    obtain ⟨en, here⟩ : ∃ en, mid.entry? twin = some en :=
      ⟨_, Array.getElem?_eq_getElem hx.lt_size⟩
    refine kept.setTarget (hg.holds _ _ found) here ?_ ne
    match en with
    | .value k => rfl
    | .placeholder x none => rfl
    | .placeholder x (some next) => exact absurd here (hx.not_filled x next)

/-- Whatever is called on a pool, following targets goes on to end. -/
theorem LinksEnd.called (ends : p.LinksEnd) (call : Call) : (p.called call).LinksEnd := by
  cases call with
  | intern k => exact PoolM.always_intern interned_linksEnd k p ends
  | parameterizedType base ps =>
    exact PoolM.always_parameterizedType interned_linksEnd base ps p ends
  | newPlaceholder name => exact ends.push rfl rfl
  | canonical id => exact PoolM.always_canonical interned_linksEnd id p ends
  | typeOf id => exact PoolM.always_typeOf interned_linksEnd id p ends
  | fill placeholder target => exact ends.fill placeholder target

theorem LinksEnd.run (ends : p.LinksEnd) (calls : List Call) : (p.run calls).LinksEnd := by
  induction calls generalizing p with
  | nil => exact ends
  | cons call rest ih =>
    rw [run_cons]
    exact ih (ends.called call)

theorem target_run {name : String}
    (found : p.entry? id = some (.placeholder name (some target))) (calls : List Call) :
    Pool.entry? (p.run calls) id = some (.placeholder name (some target)) := by
  induction calls generalizing p with
  | nil => exact found
  | cons call rest ih =>
    rw [run_cons]
    apply ih
    rcases (advances_called p call).kept id _ found with kept | ⟨x, _, wasOpen, -⟩
    · exact kept
    · simp [found] at wasOpen

theorem LinksEnd.lt_size {name : String} (ends : p.LinksEnd)
    (found : p.entry? id = some (.placeholder name (some target))) : target.index < p.size := by
  obtain ⟨count, last, hl⟩ := ends id (lt_size_of_found found)
  cases hl with
  | stop here stops =>
    cases found.symm.trans here
    simp [Entry.target?] at stops
  | link here rest =>
    obtain ⟨-, rfl⟩ : _ ∧ target = _ := by simpa [found] using here
    cases rest with
    | stop found => exact lt_size_of_found found
    | link found => exact lt_size_of_found found

/-- A placeholder is filled exactly if it is one and, while it is open, the target does not stand
for it, or, once it is filled, the target has its own canonical twin. -/
theorem fill_ok_iff (ends : p.LinksEnd) :
    (∃ after, PoolM.fill placeholder target p = .ok () after) ↔
      ∃ name old twin mid, p.entry? placeholder = some (.placeholder name old) ∧
        PoolM.canonical target p = .ok twin mid ∧ (old = none ∧ twin ≠ placeholder ∨
          old ≠ none ∧ ∃ after, PoolM.canonical placeholder mid = .ok twin after) := by
  by_cases isPlaceholder : ∃ name old, p.entry? placeholder = some (.placeholder name old)
  swap
  · obtain ⟨error, refused⟩ := fill_of_not_placeholder target
      fun name old found => isPlaceholder ⟨name, old, found⟩
    simp only [refused, reduceCtorEq, exists_false, false_iff]
    rintro ⟨name, old, -, -, found, -⟩
    exact isPlaceholder ⟨name, old, found⟩
  obtain ⟨name, old, found⟩ := isPlaceholder
  cases ran : PoolM.canonical target p with
  | error error mid => simp [fill_of_error found ran]
  | ok twin mid =>
    have hg := (PoolM.grows_canonical target p).keeps p twin mid (Extends.refl p) ran
    obtain ⟨expansion, -, hx⟩ := expands_of_canonical ran
    cases old with
    | none =>
      by_cases eq : twin = placeholder
      · subst eq
        simp [fill_of_self found ran, found]
      · simp [fill_of_open found ran eq, found, eq]
    | some old =>
      have kept := hg.holds _ _ found
      have endsLater : mid.LinksEnd := by
        have later := PoolM.always_canonical interned_linksEnd target p ends
        rwa [ran] at later
      have ne : twin ≠ placeholder := by
        rintro rfl
        exact hx.not_filled _ _ kept
      have link := canonical_of_link endsLater kept (endsLater.lt_size kept)
      simp only [fill_of_filled found ran ne, compareTarget_ok, found]
      by_cases eq : old = twin
      · -- a twin is its own twin
        subst eq
        simp [link, hx.canonical_self]
      · simp [link, eq]

theorem extends_of_refused (refused : PoolM.fill placeholder target p = .error error after) :
    after.Extends p := by
  rcases fill_cases (PoolM.always_canonical (PoolM.interned_extends p)) (Extends.refl p) placeholder
    target with kept | ⟨name, twin, mid, -, -, -, -, filled⟩
  · rwa [refused] at kept
  · simp [filled] at refused

/-! ### Runs in which no constant comes to contain itself -/

/-- Every id of the pool can be written out. -/
def Expandable (p : Pool) : Prop :=
  ∀ id, id.index < p.size → ∃ expansion, p.Expands true id expansion

/-- An id is built from whatever its expansion leaves open. -/
theorem Expands.refers (hx : p.Expands through id expansion)
    (leaves : Leaves placeholder expansion) : Relation.ReflTransGen p.Refers id placeholder := by
  induction hx with
  | hole found =>
    cases leaves
    exact .refl
  | link _ found _ ih => exact .head ⟨_, found, by simp [Entry.parts]⟩ (ih leaves)
  | @node id k ps found arity _ ih =>
    cases leaves with
    | part mem leaves =>
      obtain ⟨i, hi, rfl⟩ := List.mem_iff_getElem.mp mem
      have hasChild := List.getElem?_eq_getElem (arity ▸ hi : i < k.children.length)
      refine .head ⟨_, found, List.mem_of_getElem? hasChild⟩ ?_
      exact ih i _ _ hasChild (List.getElem?_eq_getElem hi) leaves

theorem Expands.setTarget {name : String}
    (ho : p.entry? placeholder = some (.placeholder name none)) (target : ConstId)
    (hx : p.Expands through id expansion) (closed : ¬Leaves placeholder expansion) :
    (p.setTarget placeholder target).Expands through id expansion := by
  have entries := entry?_setTarget ho target
  induction hx with
  | @hole id _ found =>
    have x : id ≠ placeholder := by
      rintro rfl
      exact closed .hole
    exact .hole (by rw [entries, if_neg x, found])
  | @link id _ _ _ allowed found _ ih =>
    have x : id ≠ placeholder := by
      rintro rfl
      simp [ho] at found
    exact .link allowed (by rw [entries, if_neg x, found]) (ih closed)
  | @node id k ps found arity _ ih =>
    have x : id ≠ placeholder := by
      rintro rfl
      simp [ho] at found
    refine .node (by rw [entries, if_neg x, found]) arity fun i c part hasChild hasPart => ?_
    exact ih i c part hasChild hasPart fun leaves =>
      closed (.part (List.mem_of_getElem? hasPart) leaves)

/-- What an id expands to once a placeholder is filled. -/
theorem Expands.fill {name : String} {i : Expansion} (hx : p.Expands true id expansion)
    (ho : p.entry? placeholder = some (.placeholder name none))
    (goes : (p.setTarget placeholder target).Expands true target i) :
    (p.setTarget placeholder target).Expands true id (expansion.fill placeholder i) := by
  have entries := entry?_setTarget ho target
  induction hx with
  | @hole id _ found =>
    rw [Expansion.fill]
    split
    · rename_i eq
      exact .link rfl (by rw [entries, if_pos eq]) goes
    · rename_i x
      exact .hole (by rw [entries, if_neg x, found])
  | @link id _ _ _ _ found _ ih =>
    have x : id ≠ placeholder := by
      rintro rfl
      simp [ho] at found
    exact .link rfl (by rw [entries, if_neg x, found]) ih
  | @node id k ps found arity _ ih =>
    have x : id ≠ placeholder := by
      rintro rfl
      simp [ho] at found
    rw [Expansion.fill]
    refine .node (by rw [entries, if_neg x, found]) (by simpa using arity) ?_
    intro j c part hasChild hasPart
    rw [List.getElem?_map] at hasPart
    obtain ⟨orig, hasOriginal, rfl⟩ := Option.map_eq_some_iff.mp hasPart
    exact ih j c orig hasChild hasOriginal

/-- What the placeholder left open is written out as its target from now on. -/
theorem Expandable.setTarget (all : p.Expandable) {name : String}
    (ho : p.entry? placeholder = some (.placeholder name none))
    (hx : p.Expands true target expansion) (closed : ¬Leaves placeholder expansion) :
    (p.setTarget placeholder target).Expandable := by
  intro id hi
  obtain ⟨whole, expandsWhole⟩ := all id (by simpa [Pool.setTarget, Store.setTarget, Pool.size] using hi)
  exact ⟨_, expandsWhole.fill ho (hx.setTarget ho target closed)⟩

theorem Expandable.push (all : p.Expandable) {en : Entry}
    (added : after.entries = p.entries.push en)
    (new : ∃ expansion, after.Expands true ⟨p.size⟩ expansion) : after.Expandable := by
  intro id hi
  by_cases eq : id = ⟨p.size⟩
  · rw [eq]
    exact new
  · have ne : id.index ≠ p.size := fun he => eq (by cases id; simpa using he)
    rw [size_of_push added] at hi
    obtain ⟨expansion, hx⟩ := all id (by omega)
    exact ⟨expansion, hx.mono (.of_push added)⟩

theorem Expandable.addPlaceholder (all : p.Expandable) (name : String) :
    (p.addPlaceholder name).2.Expandable :=
  all.push rfl ⟨.hole _, .hole (by rw [entry?_of_push rfl, if_pos rfl])⟩

theorem Expandable.intern (all : p.Expandable) (hi : ∀ c ∈ k.children, c.index < p.size) :
    (p.intern k).2.Expandable := by
  rcases p.intern_cases k with ⟨id, -, eq⟩ | ⟨-, last, added⟩
  · rw [eq]
    exact all
  · obtain ⟨ps, hx⟩ := exists_forall₂ fun c mem => all c (hi c mem)
    have here := Extends.entry?_intern p k
    rw [last] at here
    exact all.push added ⟨.node k.shell ps, .of_parts here (hx.imp fun _ _ hx => hx.mono (.intern p k))⟩

/-- A step after which ids can still be written out, the one it found among them. -/
structure Stays (step : PoolM ConstId) : Prop where
  grows : PoolM.Grows step
  keeps : Always Expandable step
  inside : ∀ p id after, p.Expandable → step p = .ok id after → id.index < after.size

theorem Stays.mapM {step : ConstId → PoolM ConstId} (each : ∀ id, Stays (step id))
    {ids twins : List ConstId} (all : p.Expandable) (ran : ids.mapM step p = .ok twins after) :
    ∀ twin ∈ twins, twin.index < after.size := by
  induction ids generalizing p twins with
  | nil =>
    rw [List.mapM_nil] at ran
    cases ran
    simp
  | cons id rest ih =>
    rw [List.mapM_cons] at ran
    obtain ⟨twin, mid, ranFirst, ran⟩ := bind_ok.mp ran
    obtain ⟨others, ranRest, rfl⟩ := bind_pure_ok.mp ran
    have hi := (each id).inside p twin mid all ranFirst
    have allMiddle := (each id).keeps.keeps p twin mid all ranFirst
    have hg : after.Extends mid := by
      have grows := Always.mapM (fun id => (each id).grows mid) rest mid (Extends.refl mid)
      rwa [ranRest] at grows
    intro x mem
    rcases List.mem_cons.mp mem with rfl | mem
    · exact Nat.lt_of_lt_of_le hi hg.size_le
    · exact ih allMiddle ranRest x mem

theorem stays_intern (leaf : k.children = []) : Stays (PoolM.intern k) where
  grows := PoolM.grows_intern k
  keeps p all := all.intern (by simp [leaf])
  inside p id after all ran := by
    have he := Extends.entry?_intern p k
    rw [modifyGet_ok.mp ran] at he
    exact lt_size_of_found he

theorem stays_canonicalWithin (n : Nat) (id : ConstId) : Stays (PoolM.canonicalWithin n id) := by
  refine ⟨PoolM.grows_canonicalWithin n id, ?_, fun p twin after all ran => ?_⟩
  · induction n generalizing id with
    | zero => exact Always.throw _
    | succ n ih =>
      refine Always.bind (PoolM.always_read _) fun id => Always.bind (PoolM.always_read _) fun en => ?_
      split
      · exact Always.pure _
      · rename_i k
        intro p all
        refine endState_bind (PoolM.always_mapChildren ih k p all) fun rebuilt mid ran => ?_
        rw [Constant.mapChildrenM_eq] at ran
        obtain ⟨twins, ranTwins, rfl⟩ := map_ok.mp ran
        have allMiddle := (Always.mapM ih k.children).keeps p twins mid all ranTwins
        split
        · exact allMiddle
        · -- the twins are in the pool by now
          obtain ⟨arity, hg, trace⟩ := mapM_trace (PoolM.grows_canonicalWithin n) ranTwins
          refine allMiddle.intern ?_
          rw [Constant.children_withParts arity]
          intro twin mem
          obtain ⟨i, hi, rfl⟩ := List.mem_iff_getElem.mp mem
          obtain ⟨_, fst, snd, hasTwin, ranChild, grownChild⟩ :=
            trace i _ (List.getElem?_eq_getElem (arity ▸ hi))
          rw [List.getElem?_eq_getElem hi, Option.some.injEq] at hasTwin
          obtain ⟨expansion, -, hx⟩ := expands_of_canonicalWithin ranChild
          exact hasTwin ▸ (hx.mono grownChild).lt_size
  · obtain ⟨expansion, -, hx⟩ := expands_of_canonicalWithin ran
    exact hx.lt_size

theorem stays_canonical (id : ConstId) : Stays (PoolM.canonical id) where
  grows := PoolM.grows_canonical id
  keeps := Always.bind Always.get fun _ => (stays_canonicalWithin _ _).keeps
  inside p twin after _ ran := by
    obtain ⟨expansion, -, hx⟩ := expands_of_canonical ran
    exact hx.lt_size

theorem stays_typeOfWithin (n : Nat) (id : ConstId) : Stays (PoolM.typeOfWithin n id) := by
  induction n generalizing id with
  | zero =>
    refine ⟨fun _ => Always.throw _, Always.throw _, fun _ _ _ _ ran => ?_⟩
    simp [PoolM.typeOfWithin] at ran
  | succ n ih =>
    refine ⟨fun s => PoolM.always_typeOfWithin (PoolM.interned_extends s) _ id, ?_, ?_⟩
    · refine Always.bind (PoolM.always_read _) fun k => ?_
      rcases k with _ | _ | _ | _ | _ | _ | es | _
      case some.tuple =>
        intro p all
        refine endState_bind (Always.mapM (fun id => (ih id).keeps) es p all) fun types mid ran => ?_
        have allMiddle := (Always.mapM (fun id => (ih id).keeps) es).keeps p types mid all ran
        have hi : ∀ c ∈ (Constant.type (.tuple types)).children, c.index < mid.size :=
          Stays.mapM ih all ran
        exact allMiddle.intern hi
      case none | some.type => exact Always.throw _
      all_goals exact (stays_intern rfl).keeps
    · intro p twin after all ran
      unfold PoolM.typeOfWithin at ran
      obtain ⟨k, eq, hl, ran⟩ := bind_ok.mp ran
      obtain ⟨-, rfl⟩ := PoolM.read_ok.mp hl
      rcases k with _ | _ | _ | _ | _ | _ | es | _
      case some.tuple =>
        obtain ⟨types, mid, ranTypes, ran⟩ := bind_ok.mp ran
        have he := Extends.entry?_intern mid (.type (.tuple types))
        rw [modifyGet_ok.mp ran] at he
        exact lt_size_of_found he
      case none | some.type => simp at ran
      all_goals exact (stays_intern rfl).inside p twin after all ran

/-! ### Careful runs -/

/-- The ids that a call is given. -/
def Call.ids : Call → List ConstId
  | .intern k => k.children
  | .parameterizedType base ps => base :: ps
  | .newPlaceholder _ => []
  | .fill placeholder target => [placeholder, target]
  | .canonical id => [id]
  | .typeOf id => [id]

/-- An id stands for a constant that is built from another. -/
def Encloses (p : Pool) (id part : ConstId) : Prop :=
  ∃ whole k, p.follow id = .ok whole ∧ p.entry? whole = some (.value k) ∧
    Relation.TransGen p.Refers whole part

/-- A call with ids of the pool. No placeholder is filled with a constant that contains it. -/
structure Call.Careful (call : Call) (p : Pool) : Prop where
  inside : ∀ id ∈ call.ids, id.index < p.size
  apart : ∀ placeholder target, call = .fill placeholder target → ¬p.Encloses target placeholder

/-- What has no parts contains nothing. -/
theorem not_encloses_of_leaf (whole : ConstId) (en : Entry) (followed : p.follow id = .ok whole)
    (found : p.entry? whole = some en) (leaf : en.parts = []) (part : ConstId) :
    ¬p.Encloses id part := by
  rintro ⟨x, k, followedOther, -, reaches⟩
  obtain rfl : whole = x := Except.ok.inj (followed.symm.trans followedOther)
  obtain ⟨next, ⟨here, foundHere, mem⟩, -⟩ := Relation.TransGen.head'_iff.mp reaches
  obtain rfl : en = here := Option.some.inj (found.symm.trans foundHere)
  simp [leaf] at mem

/-- Every call of a run is careful. -/
def CarefulRun (p : Pool) : List Call → Prop
  | [] => True
  | call :: rest => call.Careful p ∧ CarefulRun (p.called call) rest

/-- The expansion of the target leaves the placeholder open only if the target is the placeholder or
contains it. -/
theorem not_leaves_of_apart {mid : Pool} {name : String} {twin : ConstId}
    (ho : p.entry? placeholder = some (.placeholder name none))
    (hx : p.Expands true target expansion) (apart : ¬p.Encloses target placeholder)
    (unfolds : mid.Expands false twin expansion) (ne : twin ≠ placeholder) :
    ¬Leaves placeholder expansion := by
  intro leaves
  obtain ⟨count, whole, hl, expandsWhole⟩ := hx.leads
  obtain ⟨en, found, last⟩ := hl.last
  match en with
  | .placeholder x none =>
    obtain rfl := expandsWhole.unique (.hole found)
    cases leaves
    cases unfolds with
    | hole => exact ne rfl
    | link allowed => simp at allowed
  | .value k =>
    apply apart
    refine ⟨whole, k, hl.follow, found, ?_⟩
    rcases Relation.reflTransGen_iff_eq_or_transGen.mp (expandsWhole.refers leaves) with eq | reaches
    · rw [← eq, ho] at found
      simp at found
    · exact reaches

theorem Expandable.fill (all : p.Expandable) (hi : target.index < p.size)
    (apart : ¬p.Encloses target placeholder) :
    (endState (PoolM.fill placeholder target p)).Expandable := by
  rcases fill_cases (fun id => (stays_canonical id).keeps) all placeholder target with
    kept | ⟨name, twin, mid, found, ran, ne, kept, filled⟩
  · exact kept
  · obtain ⟨expansion, hx⟩ := all target hi
    obtain ⟨twin, mid, ran', hg, unfolds⟩ := hx.canonical
    cases ran.symm.trans ran'
    rw [filled]
    exact kept.setTarget (hg.holds _ _ found) unfolds.loosen
      (not_leaves_of_apart found hx apart unfolds ne)

theorem Expandable.called (all : p.Expandable) {call : Call} (care : call.Careful p) :
    (p.called call).Expandable := by
  cases call with
  | intern k => exact all.intern care.inside
  | parameterizedType base ps =>
    cases ps with
    | nil => exact all
    | cons param rest => exact all.intern care.inside
  | newPlaceholder name => exact all.addPlaceholder name
  | canonical id => exact (stays_canonical id).keeps p all
  | typeOf id => exact (Always.bind Always.get fun _ => (stays_typeOfWithin _ id).keeps) p all
  | fill placeholder target =>
    exact all.fill (care.inside target (by simp [Call.ids])) (care.apart placeholder target rfl)

theorem Expandable.run (all : p.Expandable) {calls : List Call} (care : p.CarefulRun calls) :
    (p.run calls).Expandable := by
  induction calls generalizing p with
  | nil => exact all
  | cons call rest ih =>
    rw [run_cons]
    exact ih (all.called care.1) care.2

/-- How placeholders behave in a pool: a target never changes, following targets ends, exactly the
targets described are accepted, and a refusal changes no entry. -/
structure FillsOnce (p : Pool) : Prop where
  stays : ∀ calls id name target, p.entry? id = some (.placeholder name (some target)) →
    Pool.entry? (p.run calls) id = some (.placeholder name (some target))
  ends : ∀ id, id.index < p.size → ∃ target, p.follow id = .ok target
  accepts : ∀ placeholder target, ((∃ after, PoolM.fill placeholder target p = .ok () after) ↔
      ∃ name old twin mid, p.entry? placeholder = some (.placeholder name old) ∧
        PoolM.canonical target p = .ok twin mid ∧
        (old = none ∧ twin ≠ placeholder ∨
          old ≠ none ∧ ∃ after, PoolM.canonical placeholder mid = .ok twin after))
  refuses : ∀ placeholder target error after, PoolM.fill placeholder target p = .error error after →
      ∀ id en, p.entry? id = some en → after.entry? id = some en

/-- Whatever was called on a pool that was empty at first, its placeholders are filled once and
their links end. If no placeholder was filled with a constant that contains it, every id has a
canonical twin for targets to be compared by. -/
theorem run_fills_once (calls : List Call) : (empty.run calls).FillsOnce ∧
      (empty.CarefulRun calls → ∀ id, id.index < (empty.run calls).size →
        ∃ twin after, PoolM.canonical id (empty.run calls) = .ok twin after) := by
  have ends : (empty.run calls).LinksEnd :=
    LinksEnd.run (fun id inside => by simp [size, empty] at inside) calls
  refine ⟨⟨fun further id name target found => target_run found further, ?_, ?_, ?_⟩, ?_⟩
  · intro id inside
    obtain ⟨count, target, leads⟩ := ends id inside
    exact ⟨target, leads.follow⟩
  · intro placeholder target
    exact fill_ok_iff ends
  · intro placeholder target error after refused id entry found
    exact (extends_of_refused refused).holds id entry found
  · intro careful id inside
    have all : empty.Expandable := fun id inside => by simp [size, empty] at inside
    obtain ⟨expansion, expands⟩ := all.run careful id inside
    obtain ⟨twin, after, ran, -⟩ := expands.canonical
    exact ⟨twin, after, ran⟩

end Pool

/-- Two names that are linked before either is known, and an attempt to close the circle. -/
def linkedNames : List Pool.Call :=
  [.newPlaceholder "Id", .newPlaceholder "Key", .intern (.type (.nullable ⟨0⟩)), .fill ⟨0⟩ ⟨1⟩,
    .fill ⟨1⟩ ⟨0⟩, .intern (.type (.named "Int")), .fill ⟨1⟩ ⟨3⟩]

theorem linkedNames_careful : Pool.empty.CarefulRun linkedNames := by
  have apart : ∀ (call : Pool.Call) (p : Pool), (∀ id ∈ call.ids, id.index < p.size) →
      (∀ placeholder target, call ≠ .fill placeholder target) → call.Careful p :=
    fun call p hi x => ⟨hi, fun _ _ eq => absurd eq (x _ _)⟩
  refine ⟨apart _ _ (by decide) (by simp), apart _ _ (by decide) (by simp),
    apart _ _ (by decide) (by simp), ⟨by decide +kernel, ?_⟩, ⟨by decide +kernel, ?_⟩,
    apart _ _ (by decide) (by simp), ⟨by decide +kernel, ?_⟩, trivial⟩
  all_goals
    rintro placeholder target ⟨rfl, rfl⟩
  · exact Pool.not_encloses_of_leaf ⟨1⟩ (.placeholder "Key" none) (by cbv) (by cbv) rfl _
  · exact Pool.not_encloses_of_leaf ⟨1⟩ (.placeholder "Key" none) (by cbv) (by cbv) rfl _
  · exact Pool.not_encloses_of_leaf ⟨3⟩ (.value (.type (.named "Int"))) (by cbv) (by cbv) rfl _

/-- The circle is refused, and the nullable type of the first name has a canonical twin at last. -/
theorem linkedNames_filled_once : Pool.empty.CarefulRun linkedNames ∧
    (¬∃ after, PoolM.fill ⟨1⟩ ⟨0⟩ (Pool.empty.run (linkedNames.take 4)) = .ok () after) ∧
    ∃ twin after, PoolM.canonical ⟨2⟩ (Pool.empty.run linkedNames) = .ok twin after := by
  refine ⟨linkedNames_careful, ?_, ?_⟩
  · have isOpen : Pool.entry? (Pool.empty.run (linkedNames.take 4)) ⟨1⟩ =
        some (.placeholder "Key" none) := by
      cbv
    have stands : PoolM.canonical ⟨0⟩ (Pool.empty.run (linkedNames.take 4)) =
        .ok ⟨1⟩ (Pool.empty.run (linkedNames.take 4)) := by
      cbv
    rw [(Pool.run_fills_once (linkedNames.take 4)).1.accepts]
    simp [isOpen, stands]
  · exact (Pool.run_fills_once linkedNames).2 linkedNames_careful ⟨2⟩ (by decide +kernel)

end TreeCompiler
