import Lox.Proofs.Scope.Walk
import Lox.Proofs.Stmt.FreshIds
import Lox.Proofs.Stmt.Reading
import Mathlib.Data.List.Flatten
import Mathlib.Data.List.Perm.Subperm

/-!
# Every occurrence is noted once

The walk notes the distance of an occurrence in a table that may be shared by
many programs.  No entry of the table is ever overwritten: every occurrence
of a tree is visited exactly once, no two occurrences share an id, and what
stands in the table for an id at the end is what was computed at the one visit
of its occurrence.

There are three groups.

* Visits.  `visits` lists the actions of a walk, each with the state in which
  it is done.  `perm_visits` shows that the walk comes by every id of its
  actions exactly once: an action has the ids of its own occurrence and of the
  actions that replace it (`perm_visit`).
* Notes.  `Visit.note?` is the entry that a visit makes.  `Threads` says that
  visits pass one table on, and `Threads.noted` is what follows if they have
  different ids.
* Sources.  `readAll` are the trees that are read from some token lists, one
  after the other, with ids from one counter.
-/

namespace Lox.Scope

/-! ## Visits -/

/-- What is done at one point of a walk: the action and the state before it. -/
structure Visit where
  action : Action
  state : State

/-- The visits of a walk, in order. -/
def visits (actions : List Action) (st : State) : List Visit :=
  match actions with
  | [] => []
  | a :: rest => ⟨a, st⟩ :: visits ((visit st a).1 ++ rest) (visit st a).2
termination_by weight actions
decreasing_by
  have := weight_visit_lt st a
  simp only [weight_append, weight]
  omega

/-- The id of the occurrence that an action looks up itself. -/
def Action.id? : Action → Option Nat
  | .expression (.variable ref) => some ref.id
  | .expression (.this id _) => some id
  | .expression (.super id _ _) => some id
  | .bind id _ => some id
  | .inherit parent _ => some parent.id
  | _ => none

/-- All ids that an action leads to. -/
def Action.ids : Action → List Nat
  | .statement s => s.ids
  | .statements body => Stmt.idsAll body
  | .expression e => e.ids
  | .expressions list => Expr.idsAll list
  | .routine f _ => f.ids
  | .members list => FunctionDecl.idsAll list
  | .bind id _ => [id]
  | .inherit parent _ => [parent.id]
  | _ => []

theorem ids_optional (e : Option Expr) :
    (optional e).flatMap Action.ids = Expr.idsOption e := by
  cases e with
  | none => rfl
  | some e => simp [optional, Action.ids, Expr.idsOption]

theorem perm_visitExpr (st : State) (e : Expr) :
    ((Action.expression e).id?.toList ++
      (visitExpr st e).1.flatMap Action.ids).Perm e.ids := by
  cases e with
  | set object name value =>
    -- the value of a field is walked before its object
    simp only [Action.id?, visitExpr, List.flatMap_cons, List.flatMap_nil,
      Action.ids, Expr.ids, Option.toList_none, List.nil_append,
      List.append_nil]
    exact List.perm_append_comm
  | _ => simp [Action.id?, visitExpr, Action.ids, Expr.ids]

theorem perm_visitStmt (st : State) (s : Stmt) :
    ((visitStmt st s).1.flatMap Action.ids).Perm s.ids := by
  cases s with
  | var x initializer =>
    simp [visitStmt, Action.ids, Stmt.ids, ids_optional]
  | ifElse condition thenBranch elseBranch =>
    cases elseBranch <;> simp [visitStmt, Action.ids, Stmt.ids]
  | «return» line value => simp [visitStmt, Stmt.ids, ids_optional]
  | «class» c =>
    obtain ⟨name, superclass, methods⟩ := c
    cases superclass <;>
      simp [visitStmt, visitClass, Action.ids, Stmt.ids, ClassDecl.ids]
  | _ => simp [visitStmt, Action.ids, Stmt.ids]

/-- The ids of an action are those of its own occurrence and of the actions
that replace it. -/
theorem perm_visit (st : State) (a : Action) :
    (a.id?.toList ++ (visit st a).1.flatMap Action.ids).Perm a.ids := by
  cases a with
  | statement s => exact perm_visitStmt st s
  | expression e => exact perm_visitExpr st e
  | statements body =>
    cases body <;> simp [Action.id?, visit, Action.ids, Stmt.idsAll]
  | expressions list =>
    cases list <;> simp [Action.id?, visit, Action.ids, Expr.idsAll]
  | members list =>
    cases list <;> simp [Action.id?, visit, Action.ids, FunctionDecl.idsAll]
  | routine f body =>
    obtain ⟨name, params, statements, kind⟩ := f
    simp [Action.id?, visit, Action.ids, FunctionDecl.ids]
  | _ => simp [Action.id?, visit, Action.ids]

/-- The id of the occurrence that is looked up at a visit. -/
def Visit.id? (v : Visit) : Option Nat :=
  v.action.id?

/-- The walk comes by every id of its actions exactly once. -/
theorem perm_visits (actions : List Action) (st : State) :
    ((visits actions st).filterMap Visit.id?).Perm
      (actions.flatMap Action.ids) := by
  fun_induction visits actions st with
  | case1 st => exact .refl []
  | case2 st a rest ih =>
    have hhead : ((⟨a, st⟩ : Visit) :: visits ((visit st a).1 ++ rest)
        (visit st a).2).filterMap Visit.id? = a.id?.toList ++
          (visits ((visit st a).1 ++ rest) (visit st a).2).filterMap
            Visit.id? := by
      cases hid : a.id? <;> simp [Visit.id?, hid]
    rw [List.flatMap_append] at ih
    rw [hhead, List.flatMap_cons]
    have htail := ih.append_left a.id?.toList
    rw [← List.append_assoc] at htail
    exact htail.trans ((perm_visit st a).append_right _)

/-! ## Notes -/

/-- The entry for an occurrence of a name, if some scope holds the name. -/
def State.found? (st : State) (id : Nat) (name : String) :
    Option (Nat × Nat) :=
  (st.distance? name).map fun distance => (id, distance)

/-- The entry that a visit notes.  Outside of classes `this` is only
reported. -/
def Visit.note? (v : Visit) : Option (Nat × Nat) :=
  match v.action with
  | .expression (.variable ref) => v.state.found? ref.id ref.name
  | .expression (.this id _) =>
    if v.state.context = .outside then none
    else v.state.found? id Keyword.kwThis.lexeme
  | .expression (.super id _ _) => v.state.found? id Keyword.kwSuper.lexeme
  | .bind id name => v.state.found? id name
  | .inherit parent _ => v.state.found? parent.id parent.name
  | _ => none

/-- The table with an entry, if there is one. -/
def noteIn (table : Distances) : Option (Nat × Nat) → Distances
  | some (id, distance) => table.record id distance
  | none => table

theorem find?_noteIn (table : Distances) (note : Option (Nat × Nat))
    (id : Nat) (h : ∀ d, note ≠ some (id, d)) :
    (noteIn table note).find? id = table.find? id := by
  cases note with
  | none => rfl
  | some entry =>
    refine Distances.find?_record_of_ne _ _ fun heq => ?_
    exact h entry.2 (by rw [heq])

theorem id_of_found? {st : State} {id id' d : Nat} {name : String}
    (h : st.found? id name = some (id', d)) : id = id' := by
  unfold State.found? at h
  rcases Option.map_eq_some_iff.1 h with ⟨_, _, heq⟩
  exact congrArg Prod.fst heq

/-- What is noted at a visit is an entry for its own occurrence. -/
theorem Visit.id?_of_note? {v : Visit} {id d : Nat}
    (h : v.note? = some (id, d)) : v.id? = some id := by
  unfold Visit.note? at h
  unfold Visit.id? Action.id?
  split at h
  · rw [id_of_found? h]
  · split at h
    · cases h
    · rw [id_of_found? h]
  · rw [id_of_found? h]
  · rw [id_of_found? h]
  · rw [id_of_found? h]
  · cases h

theorem sublist_notes (list : List Visit) :
    ((list.filterMap Visit.note?).map Prod.fst).Sublist
      (list.filterMap Visit.id?) := by
  induction list with
  | nil => exact .slnil
  | cons v rest ih =>
    cases hnote : v.note? with
    | none =>
      rw [List.filterMap_cons_none hnote]
      exact ih.trans ((List.sublist_cons_self v rest).filterMap _)
    | some entry =>
      rw [List.filterMap_cons_some hnote,
        List.filterMap_cons_some (Visit.id?_of_note? hnote), List.map_cons]
      exact ih.cons_cons entry.1

theorem distances_bind (st : State) (id : Nat) (name : String) :
    (st.bind id name).distances = noteIn st.distances (st.found? id name) := by
  unfold State.bind State.found?
  cases st.distance? name <;> rfl

theorem distances_reportIf (st : State) (condition : Bool) (line : Nat)
    (lexeme : String) (f : ScopeFault) :
    (st.reportIf condition line lexeme f).distances = st.distances := by
  unfold State.reportIf
  split <;> rfl

theorem found?_reportIf (st : State) (condition : Bool) (line : Nat)
    (lexeme : String) (f : ScopeFault) (id : Nat) (name : String) :
    (st.reportIf condition line lexeme f).found? id name =
      st.found? id name := by
  unfold State.reportIf
  split <;> rfl

theorem distances_read (st : State) (ref : Ref) :
    (st.read ref).distances =
      noteIn st.distances (st.found? ref.id ref.name) := by
  rw [State.read, distances_bind, distances_reportIf, found?_reportIf]

theorem distances_readThis (st : State) (id line : Nat) :
    (st.readThis id line).distances = noteIn st.distances
      (if st.context = .outside then none
        else st.found? id Keyword.kwThis.lexeme) := by
  unfold State.readThis
  split
  · rfl
  · exact distances_bind st id _

theorem distances_readSuper (st : State) (id line : Nat) :
    (st.readSuper id line).distances =
      noteIn st.distances (st.found? id Keyword.kwSuper.lexeme) := by
  unfold State.readSuper
  split <;> exact distances_bind _ id _

theorem distances_declare (st : State) (x : Ident) :
    (st.declare x).distances = st.distances := by
  unfold State.declare
  repeat' split
  all_goals rfl

theorem distances_define (st : State) (x : Ident) :
    (st.define x).distances = st.distances := by
  unfold State.define
  split <;> rfl

theorem distances_parameters (st : State) (params : List Ident) :
    (st.parameters params).distances = st.distances := by
  induction params generalizing st with
  | nil => rfl
  | cons x rest ih =>
    show (((st.declare x).define x).parameters rest).distances = st.distances
    rw [ih, distances_define, distances_declare]

theorem distances_checkReturn (st : State) (line : Nat) (hasValue : Bool) :
    (st.checkReturn line hasValue).distances = st.distances := by
  rw [State.checkReturn, distances_reportIf, distances_reportIf]

/-- A visit changes the table by what it notes, and by nothing else. -/
theorem distances_visit (v : Visit) :
    (visit v.state v.action).2.distances =
      noteIn v.state.distances v.note? := by
  obtain ⟨a, st⟩ := v
  cases a with
  | statement s =>
    cases s with
    | ifElse condition thenBranch elseBranch => cases elseBranch <;> rfl
    | «return» line value => exact distances_checkReturn st line _
    | _ => rfl
  | expression e =>
    cases e with
    | «variable» ref => exact distances_read st ref
    | this id line => exact distances_readThis st id line
    | super id line method => exact distances_readSuper st id line
    | _ => rfl
  | statements body => cases body <;> rfl
  | expressions list => cases list <;> rfl
  | members list => cases list <;> rfl
  | routine f body =>
    obtain ⟨name, params, statements, kind⟩ := f
    exact distances_parameters _ params
  | declare x => exact distances_declare st x
  | define x => exact distances_define st x
  | bind id name => exact distances_bind st id name
  | inherit parent name =>
    show ((st.reportIf _ _ _ _).read parent).distances = _
    rw [distances_read, distances_reportIf, found?_reportIf]
    rfl
  | _ => rfl

/-- Visits that pass a table on: each finds it as those before it left it, and
the last one leaves `table'`. -/
inductive Threads : Distances → List Visit → Distances → Prop
  | nil (table : Distances) : Threads table [] table
  | cons {v : Visit} {rest : List Visit} {table' : Distances}
      (h : Threads (noteIn v.state.distances v.note?) rest table') :
      Threads v.state.distances (v :: rest) table'

namespace Threads

variable {table table' table'' : Distances} {first second : List Visit}

theorem append (h : Threads table first table')
    (h' : Threads table' second table'') :
    Threads table (first ++ second) table'' := by
  induction h with
  | nil => exact h'
  | cons _ ih => exact .cons (ih h')

theorem find?_eq {id : Nat} (h : Threads table first table')
    (hid : ∀ v ∈ first, v.id? ≠ some id) :
    table'.find? id = table.find? id := by
  induction h with
  | nil => rfl
  | cons _ ih =>
    have hparts := List.forall_mem_cons.1 hid
    rw [ih hparts.2]
    refine find?_noteIn _ _ _ fun d hnote => ?_
    exact hparts.1 (Visit.id?_of_note? hnote)

/-- Where no two visits have one id and the table knows none of the ids, each
visit finds no entry for its id, and its own entry is there at the end. -/
theorem noted (h : Threads table first table')
    (hnodup : (first.filterMap Visit.id?).Nodup)
    (hfree : ∀ id ∈ first.filterMap Visit.id?, table.find? id = none) :
    ∀ v ∈ first, ∀ id, v.id? = some id →
      v.state.distances.find? id = none ∧
        table'.find? id = v.note?.map Prod.snd := by
  induction h with
  | nil => simp
  | @cons v rest table' hrest ih =>
    -- the ids of the other visits are different from that of the first one
    have hother : ∀ id ∈ rest.filterMap Visit.id?, v.id? ≠ some id := by
      intro id hmem hid
      rw [List.filterMap_cons_some hid, List.nodup_cons] at hnodup
      exact hnodup.1 hmem
    have hsub : ∀ id ∈ rest.filterMap Visit.id?,
        id ∈ (v :: rest).filterMap Visit.id? := by
      intro id hmem
      rcases List.mem_filterMap.1 hmem with ⟨w, hw, hid⟩
      exact List.mem_filterMap.2 ⟨w, List.mem_cons_of_mem _ hw, hid⟩
    have hnodup' : (rest.filterMap Visit.id?).Nodup :=
      ((List.sublist_cons_self v rest).filterMap _).nodup hnodup
    have hfree' : ∀ id ∈ rest.filterMap Visit.id?,
        (noteIn v.state.distances v.note?).find? id = none := by
      intro id hmem
      rw [find?_noteIn _ _ _ fun d hnote =>
        hother id hmem (Visit.id?_of_note? hnote)]
      exact hfree id (hsub id hmem)
    intro w hw id hid
    rcases List.mem_cons.1 hw with heq | hw
    · subst heq
      have hnone := hfree id (List.mem_filterMap.2 ⟨w, hw, hid⟩)
      refine ⟨hnone, ?_⟩
      rw [hrest.find?_eq fun w' hw' hid' =>
        hother id (List.mem_filterMap.2 ⟨w', hw', hid'⟩) hid]
      cases hnote : w.note? with
      | none => exact hnone
      | some entry =>
        have hown := Visit.id?_of_note? hnote
        rw [hid, Option.some.injEq] at hown
        simp only [noteIn, Option.map_some, Distances.find?_record, hown,
          if_true]
    · exact ih hnodup' hfree' w hw id hid

end Threads

theorem threads_visits (actions : List Action) (st : State) :
    Threads st.distances (visits actions st) (walk actions st).distances := by
  fun_induction visits actions st with
  | case1 st => rw [walk_nil]; exact .nil _
  | case2 st a rest ih =>
    rw [distances_visit ⟨a, st⟩, ← walk_cons] at ih
    exact Threads.cons (v := ⟨a, st⟩) ih

/-! ## Programs that share a table -/

/-- The table after the scope rules have been applied to some programs, one
after the other. -/
def resolveAll : List (List Stmt) → Distances → Distances
  | [], table => table
  | program :: rest, table => resolveAll rest (resolve program table).distances

/-- All visits of the walks over some programs. -/
def visitsAll : List (List Stmt) → Distances → List Visit
  | [], _ => []
  | program :: rest, table =>
    visits [.statements program] (.start table) ++
      visitsAll rest (resolve program table).distances

theorem threads_visitsAll (order : List (List Stmt)) (table : Distances) :
    Threads table (visitsAll order table) (resolveAll order table) := by
  induction order generalizing table with
  | nil => exact .nil table
  | cons program rest ih =>
    exact (threads_visits [.statements program] (.start table)).append (ih _)

/-- Every occurrence of the programs is visited exactly once. -/
theorem perm_visitsAll (order : List (List Stmt)) (table : Distances) :
    ((visitsAll order table).filterMap Visit.id?).Perm
      (Stmt.idsAll order.flatten) := by
  induction order generalizing table with
  | nil => exact .refl []
  | cons program rest ih =>
    rw [visitsAll, List.filterMap_append, List.flatten_cons,
      Stmt.idsAll_append]
    refine List.Perm.append ?_ (ih _)
    have hperm := perm_visits [.statements program] (.start table)
    rwa [List.flatMap_singleton] at hperm

/-! ## Sources -/

/-- Tokens that are read, as a program or as one expression. -/
inductive Source where
  | program (scan : Token.Scan)
  | expression (scan : Token.Scan)

namespace Source

/-- The trees that are read from a source. -/
def trees (firstId : Nat) : Source → List Stmt
  | program scan => (Stmt.parse scan firstId).statements
  | expression scan =>
    match (Expr.parse scan firstId).result with
    | .ok e => [.expression e]
    | .error _ => []

/-- The first id that is free behind a source. -/
def nextId (firstId : Nat) : Source → Nat
  | program scan => (Stmt.parse scan firstId).nextId
  | expression scan => (Expr.parse scan firstId).nextId

theorem fresh_trees (s : Source) (firstId : Nat) :
    Fresh firstId (Stmt.idsAll (s.trees firstId)) (s.nextId firstId) := by
  cases s with
  | program scan => exact Stmt.fresh_parse scan firstId
  | expression scan =>
    simp only [trees, nextId]
    split
    · next e hresult =>
      simpa [Stmt.idsAll, Stmt.ids] using Expr.fresh_parse hresult
    · exact (Fresh.nil firstId).upTo (Expr.le_nextId_parse scan firstId)

end Source

/-- The trees of some sources that are read with ids from one counter. -/
def readAll : List Source → Nat → List Stmt
  | [], _ => []
  | s :: rest, firstId => s.trees firstId ++ readAll rest (s.nextId firstId)

theorem fresh_readAll (sources : List Source) (firstId : Nat) :
    ∃ nextId, Fresh firstId (Stmt.idsAll (readAll sources firstId)) nextId := by
  induction sources generalizing firstId with
  | nil => exact ⟨firstId, .nil firstId⟩
  | cons s rest ih =>
    rcases ih (s.nextId firstId) with ⟨nextId, hrest⟩
    refine ⟨nextId, ?_⟩
    rw [readAll, Stmt.idsAll_append]
    exact (s.fresh_trees firstId).append hrest

theorem Stmt.count_idsAll_le {list list' : List Stmt} (h : list.Subperm list')
    (id : Nat) : (Stmt.idsAll list).count id ≤ (Stmt.idsAll list').count id := by
  rcases h with ⟨part, hperm, hsub⟩
  rw [Stmt.idsAll_eq_flatMap, Stmt.idsAll_eq_flatMap,
    ← (hperm.flatMap_right Stmt.ids).count_eq id]
  exact (hsub.flatMap Stmt.ids).count_le id

/-- No two occurrences in all the trees that are read from any tokens with
ids from one counter share an id.  If each of the trees is resolved at most
once, in any order and into one table that has no entries for these ids yet,
then every occurrence is visited exactly once, no entry is ever overwritten,
and the entry of an occurrence is the one that was computed at its visit. -/
theorem ids_noted_once (sources : List Source) (firstId : Nat)
    (table : Distances) (hfree : ∀ id, firstId ≤ id → table.find? id = none)
    (order : List (List Stmt))
    (honce : order.flatten.Subperm (readAll sources firstId)) :
    (Stmt.idsAll (readAll sources firstId)).Nodup ∧
    ((visitsAll order table).filterMap Visit.id?).Perm
      (Stmt.idsAll order.flatten) ∧
    (((visitsAll order table).filterMap Visit.note?).map Prod.fst).Nodup ∧
    ∀ v ∈ visitsAll order table, ∀ id, v.id? = some id →
      v.state.distances.find? id = none ∧
        (resolveAll order table).find? id = v.note?.map Prod.snd := by
  rcases fresh_readAll sources firstId with ⟨nextId, hfresh⟩
  have hpart : Fresh firstId (Stmt.idsAll order.flatten) nextId :=
    hfresh.of_count_le (Stmt.count_idsAll_le honce)
  have hperm := perm_visitsAll order table
  have hnodup := hperm.nodup_iff.2 hpart.nodup
  refine ⟨hfresh.nodup, hperm, ?_, ?_⟩
  · exact (sublist_notes (visitsAll order table)).nodup hnodup
  · refine (threads_visitsAll order table).noted hnodup fun id hid => ?_
    exact hfree id (hpart.range id (hperm.mem_iff.1 hid)).1

/-- The tokens of a block with `var a = a = nil;` in it. -/
def sampleScan : Token.Scan where
  items := [.token ⟨.symbol .leftBrace, 1⟩, .token ⟨.keyword .kwVar, 1⟩,
    .token ⟨.identifier "a", 1⟩, .token ⟨.symbol .equal, 1⟩,
    .token ⟨.identifier "a", 1⟩, .token ⟨.symbol .equal, 1⟩,
    .token ⟨.keyword .kwNil, 1⟩, .token ⟨.symbol .semicolon, 1⟩,
    .token ⟨.symbol .rightBrace, 1⟩]
  endLine := 1

/-- The tree of the sample, whose assignment has the given id. -/
def sampleTree (id : Nat) : Stmt :=
  .block [.var ⟨"a", 1⟩ (some (.assign ⟨id, "a", 1⟩ (.literal .nil)))]

/-- The assignment takes the second id: the first one is that of its target,
which is thrown away. -/
theorem parse_sampleScan (n : Nat) :
    Stmt.parse sampleScan n = ⟨[sampleTree (n + 1)], [], n + 2⟩ := by
  refine Stmt.parse_of_reads ?_
  have htokens : sampleScan.tokens =
      [] ++ ⟨.symbol .leftBrace, 1⟩ :: (([] ++ ⟨.keyword .kwVar, 1⟩ ::
        ⟨.identifier "a", 1⟩ :: ⟨.symbol .equal, 1⟩ ::
          ((⟨.identifier "a", 1⟩ :: ⟨.symbol .equal, 1⟩ ::
            [⟨.keyword .kwNil, 1⟩]) ++ [⟨.symbol .semicolon, 1⟩])) ++
        [⟨.symbol .rightBrace, 1⟩]) := rfl
  rw [htokens]
  exact .snoc .nil (.statement (.block (.snoc .nil (.var (.initialized
    (.assign (.of_call (.literal rfl))))))))

/-- The sample is read twice, and what was read last is resolved first.  Each
of the two assignments has the entry of its own visit. -/
theorem ids_noted_once_sample :
    let sources := [Source.program sampleScan, .program sampleScan]
    let order := [[sampleTree 3], [sampleTree 1]]
    order.flatten.Subperm (readAll sources 0) ∧
      Stmt.idsAll (readAll sources 0) = [1, 3] ∧
      ∀ id ∈ [1, 3], (resolveAll order .empty).find? id = some 0 ∧
        ∃ v ∈ visitsAll order .empty, v.id? = some id ∧
          v.state.distances.find? id = none ∧ v.note?.map Prod.snd = some 0 := by
  intro sources order
  have hread : readAll sources 0 = [sampleTree 1, sampleTree 3] := by
    simp only [sources, readAll, Source.trees, Source.nextId, parse_sampleScan]
    rfl
  have honce : order.flatten.Subperm (readAll sources 0) := by
    rw [hread]
    exact (List.Perm.swap _ _ []).subperm
  have hids : Stmt.idsAll order.flatten = [3, 1] := rfl
  have hnoted := ids_noted_once sources 0 .empty
    (fun id _ => Distances.find?_empty id) order honce
  refine ⟨honce, by rw [hread]; rfl, fun id hid => ?_⟩
  have hfind : (resolveAll order .empty).find? id = some 0 := by
    simp only [order, resolveAll, resolve_eq]
    rcases List.mem_pair.1 hid with rfl | rfl <;> rfl
  have hmem : id ∈ (visitsAll order .empty).filterMap Visit.id? := by
    rw [hnoted.2.1.mem_iff, hids]
    simpa [or_comm] using hid
  rcases List.mem_filterMap.1 hmem with ⟨v, hv, hvid⟩
  have hvisit := hnoted.2.2.2 v hv id hvid
  exact ⟨hfind, v, hv, hvid, hvisit.1, hvisit.2.symm.trans hfind⟩

end Lox.Scope
