import Lox.Proofs.Indexed.Stmt
import Lox.Proofs.Stmt.Progress

/-!
# The index goes on

What holds of reading from a list of tokens holds of reading by index: a call
that reads a declaration comes back with the index further on, and never behind
the entry for the end of the source (`Advances`).  Reading a program ends after
a number of steps that the number of tokens bounds, and it gives no more
diagnostics than there are tokens (`reading_progresses`).
-/

namespace Lox.Indexed

open Lox.Stmt (Control Frame InCall Nest)

/-- The machine after up to so many steps. -/
def runStmt : (steps : Nat) → StmtStep → Reader StmtStep
  | 0, s => return s
  | steps + 1, .next control frames nest => do
    let s ← stepStmt control frames nest
    runStmt steps s
  | _ + 1, .done statements => return .done statements

/-- The call that reads a declaration of the list from here comes back to the
list, with a declaration or without, and then the index is further on.  On the
way the machine is at that list or at lists inside it, and the index never
passes `last`. -/
def Advances (last : Nat) (nest : Nest) (s : Slice) : Prop :=
  ∃ steps result s',
    runStmt steps (.next .declaration [] nest) s =
      some (.ok (.next .items [] (nest.take result)) s') ∧
    s.current < s'.current ∧ s'.current ≤ last ∧
    ∀ earlier < steps, ∃ control frames nest' between,
      runStmt earlier (.next .declaration [] nest) s =
        some (.ok (.next control frames nest') between) ∧
      (nest'.Inside nest ∨ nest' = nest ∧ control ≠ .items) ∧
      between.current ≤ last

variable {whole : List Token}

theorem mirrors_runStmt (hwhole : whole ≠ []) (steps : Nat) (control : Control)
    (frames : List Frame) (nest : Nest) :
    Mirrors whole (runStmt steps (.next control frames nest)) fun c =>
      stmtResult ((Stmt.Step.next control frames nest c).after steps) := by
  induction steps generalizing control frames nest with
  | zero => exact fun c h => ⟨h, rfl⟩
  | succ steps ih =>
    intro c h
    obtain ⟨hreached, hrun⟩ := mirrors_stepStmt hwhole control frames nest c h
    simp only [Stmt.Step.after]
    cases hstep : Stmt.step control frames nest c with
    | next control' frames' nest' c' =>
      simp only [hstep] at hreached hrun
      obtain ⟨hreached', hrun'⟩ := ih control' frames' nest' c' hreached
      exact ⟨hreached', (Reader.bind_ok hrun).trans hrun'⟩
    | done statements c' =>
      simp only [hstep] at hreached hrun
      cases steps with
      | zero => exact ⟨hreached, Reader.bind_ok hrun⟩
      | succ steps => exact ⟨hreached, Reader.bind_ok hrun⟩

theorem current_slice (whole : List Token) (c : Cursor) :
    (slice whole c).current = whole.length - c.rest.length := rfl

/-- Where there is a token, reading a declaration gets past it. -/
theorem advances_slice {c : Cursor} (h : c.rest <:+ whole) (hrest : c.rest ≠ [])
    (nest : Nest) : Advances whole.length nest (slice whole c) := by
  have hwhole : whole ≠ [] := by
    rintro rfl
    exact hrest (List.suffix_nil.1 h)
  obtain ⟨steps, result, c', hafter, hlength, hearlier⟩ :=
    Stmt.returns_of_declaration nest c
  obtain ⟨hreached, hrun⟩ := mirrors_runStmt hwhole steps .declaration [] nest c h
  simp only [hafter] at hreached hrun
  refine ⟨steps, result, slice whole c', hrun, ?_, ?_, fun earlier hlt => ?_⟩
  · have hsuffix := h.length_le
    have hpos := List.length_pos_iff.2 hrest
    simp only [current_slice]
    omega
  · simp only [current_slice]
    omega
  · have hcall := hearlier earlier hlt
    obtain ⟨-, hbetween⟩ :=
      mirrors_runStmt hwhole earlier .declaration [] nest c h
    cases hstate : (Stmt.Step.next .declaration [] nest c).after earlier with
    | done =>
      rw [hstate] at hcall
      exact hcall.elim
    | next control frames nest' between =>
      simp only [hstate] at hcall hbetween
      exact ⟨control, frames, nest', slice whole between, hbetween, hcall,
        Nat.sub_le _ _⟩

/-- From its start a program is read to its end. -/
theorem exists_runStmt_eq_done {c : Cursor} (hc : c.rest = whole) :
    ∃ steps ≤ 8 * whole.length + 5,
      runStmt steps (.next .items [] (.program [])) (slice whole c) =
        some (.ok (.done (Stmt.readFrom .items [] (.program []) c).1)
          (slice whole (Stmt.readFrom .items [] (.program []) c).2)) := by
  obtain ⟨rest, endLine, nextId, noted⟩ := c
  subst hc
  cases rest with
  | nil =>
    exact ⟨1, by omega, Reader.bind_ok (stepStmt_nil endLine nextId noted)⟩
  | cons t rest =>
    obtain ⟨steps, hle, hdone⟩ := Stmt.exists_after_eq_done .items []
      (.program []) ⟨t :: rest, endLine, nextId, noted⟩
    obtain ⟨-, hrun⟩ := mirrors_runStmt (List.cons_ne_nil t rest) steps .items []
      (.program []) ⟨t :: rest, endLine, nextId, noted⟩ (List.suffix_refl _)
    simp only [hdone] at hrun
    exact ⟨steps, hle, hrun⟩

/-- A slice of the source is at the place of a cursor. -/
theorem exists_slice_eq {scan : Token.Scan} {firstId : Nat} {s : Slice}
    (hentries : s.entries = (sliceOf scan firstId).entries)
    (hlt : s.current < scan.tokens.length) :
    ∃ c : Cursor, c.rest <:+ scan.tokens ∧ c.rest ≠ [] ∧
      s = slice scan.tokens c := by
  obtain ⟨entries, current, nextId, noted⟩ := s
  refine ⟨⟨scan.tokens.drop current, scan.endLine, nextId, noted⟩,
    List.drop_suffix _ _, ?_, ?_⟩
  · rw [ne_eq, List.drop_eq_nil_iff]
    exact Nat.not_le.2 hlt
  · have hcurrent : scan.tokens.length - (scan.tokens.drop current).length =
        current := by
      rw [List.length_drop]
      exact Nat.sub_sub_self (Nat.le_of_lt hlt)
    simp only [slice, hcurrent, Slice.mk.injEq, and_true]
    exact hentries

/-- Reading a program always makes progress.  It ends, after at most eight
steps for each token and five more.  Every call that starts to read a
declaration at a token comes back, whether it gives one or not, with the index
further on and not behind the entry for the end of the source.  And there are
at most as many diagnostics as tokens. -/
theorem reading_progresses (scan : Token.Scan) (firstId : Nat) :
    (∃ steps ≤ 8 * scan.tokens.length + 5, ∃ s,
      runStmt steps (.next .items [] (.program [])) (sliceOf scan firstId) =
        some (.ok (.done (Stmt.parse scan firstId).statements) s) ∧
      s.noted.reverse = (Stmt.parse scan firstId).diagnostics ∧
      s.nextId = (Stmt.parse scan firstId).nextId) ∧
    (∀ (s : Slice) (nest : Nest),
      s.entries = (sliceOf scan firstId).entries →
      s.current < scan.tokens.length → Advances scan.tokens.length nest s) ∧
    (Stmt.parse scan firstId).diagnostics.length ≤ scan.tokens.length := by
  refine ⟨?_, fun s nest hentries hlt => ?_, Stmt.length_diagnostics_le scan firstId⟩
  · obtain ⟨steps, hle, hrun⟩ :=
      exists_runStmt_eq_done (c := .start scan firstId) rfl
    exact ⟨steps, hle, _, hrun, rfl, rfl⟩
  · obtain ⟨c, hsuffix, hrest, rfl⟩ := exists_slice_eq hentries hlt
    exact advances_slice hsuffix hrest nest

/-- The block `{ var; nil; }`, whose first declaration is at fault. -/
def sampleBlock : Token.Scan :=
  ⟨[.token ⟨.symbol .leftBrace, 1⟩, .token ⟨.keyword .kwVar, 1⟩,
    .token ⟨.symbol .semicolon, 1⟩, .token ⟨.keyword .kwNil, 1⟩,
    .token ⟨.symbol .semicolon, 1⟩, .token ⟨.symbol .rightBrace, 1⟩], 1⟩

/-- The lists that are open where the block starts. -/
def sampleNest : Nest :=
  .block [] [] (.program [])

/-- In the open block the declaration at fault is read from index 1 on.  It is
noted and skipped, and reading goes on with the next one at index 3. -/
theorem reading_progresses_sample :
    (∃ s, runStmt 4 (.next .items [] (.program [])) (sliceOf sampleBlock 0) =
        some (.ok (.next .declaration [] sampleNest) s) ∧
      s.current = 1 ∧ s.noted.length = 0 ∧ Advances 6 sampleNest s) ∧
    (∃ s, runStmt 6 (.next .items [] (.program [])) (sliceOf sampleBlock 0) =
        some (.ok (.next .declaration [] sampleNest) s) ∧
      s.current = 3 ∧ s.noted.length = 1 ∧ Advances 6 sampleNest s) ∧
    (Stmt.parse sampleBlock 0).diagnostics.length ≤ 6 := by
  obtain ⟨-, hadvances, hlength⟩ := reading_progresses sampleBlock 0
  refine ⟨⟨_, rfl, rfl, rfl, ?_⟩, ⟨_, rfl, rfl, rfl, ?_⟩, hlength⟩
  · exact hadvances _ sampleNest rfl (by decide)
  · exact hadvances _ sampleNest rfl (by decide)

end Lox.Indexed
