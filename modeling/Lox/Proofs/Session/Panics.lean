import Lox.Proofs.Indexed.Stmt
import Lox.Proofs.Machine.Checked
import Lox.Proofs.Session.Reached

/-!
# No panics

Nothing that could go wrong in the implementation does: reading a source by
index stays in range, also where it recovers from faults, and puts only tokens
into operators that can be applied; and no check of a run fails, whatever is in
the store, in the distances and in the natives, and whatever the limit of the
depth.
-/

namespace Lox.Session

open Machine (Balanced applyBinary applyUnary checkedRunAlong runAlong)

/-- Drives a machine one step at each of the times, with the checks of each
step. -/
def driveChecked (times : List Float) : Drive Option := fun setting m =>
  checkedRunAlong setting times m

theorem checkedRunAlong_ofProgram (s : Session) (times : List Float)
    (program : List Stmt) :
    checkedRunAlong s.setting times (.ofProgram program s.start) =
      some (runAlong s.setting times (.ofProgram program s.start)) := by
  have hstart : Balanced s.maxDepth globals 0 (.ofProgram program s.start) :=
    ⟨⟨rfl, rfl, Nat.zero_le _⟩, rfl, trivial⟩
  exact Machine.checkedRunAlong_eq hstart (fun _ => rfl) times

theorem checkedRunAlong_ofExpr (s : Session) (times : List Float) (e : Expr) :
    checkedRunAlong s.setting times (.ofExpr e s.start) =
      some (runAlong s.setting times (.ofExpr e s.start)) := by
  have hstart : Balanced s.maxDepth globals 0 (.ofExpr e s.start) :=
    ⟨⟨rfl, rfl, Nat.zero_le _⟩, trivial⟩
  exact Machine.checkedRunAlong_eq hstart (fun _ => rfl) times

theorem runWith_driveChecked (s : Session) (times : List Float)
    (source : String) :
    s.runWith (driveChecked times) source =
      some (s.runWith (driveAlong times) source) := by
  simp only [runWith]
  split
  · rfl
  · next s' program _ =>
    rw [driveChecked, checkedRunAlong_ofProgram]
    rfl

theorem evalWith_driveChecked (s : Session) (times : List Float)
    (source : String) :
    s.evalWith (driveChecked times) source =
      some (s.evalWith (driveAlong times) source) := by
  simp only [evalWith]
  split
  · rfl
  · next s' e _ =>
    rw [driveChecked, checkedRunAlong_ofExpr]
    rfl

/-- Every source can be read by index, as a program and as an expression, with
faults or without.  The tokens that are read as operators are those that can be
applied.  And what was read runs without a failed check in every session, be it
with the distances of the session or with those that the scope rules add. -/
theorem no_panic (s : Session) (source : String) (firstId : Nat)
    (times : List Float) :
    let scan := Token.scan source
    let parsed := Stmt.parse scan firstId
    Indexed.parse scan firstId = some parsed ∧
    Indexed.parseExpr scan firstId = some (Expr.parse scan firstId) ∧
    (∀ t v, applyUnary t v = none ↔ Expr.unaryOp? t.kind = none) ∧
    (∀ t, (∃ left right, applyBinary t left right = none) ↔
      Indexed.binaryOp? t.kind = none) ∧
    checkedRunAlong s.setting times (.ofProgram parsed.statements s.start) =
      some (runAlong s.setting times (.ofProgram parsed.statements s.start)) ∧
    (∀ e, checkedRunAlong s.setting times (.ofExpr e s.start) =
      some (runAlong s.setting times (.ofExpr e s.start))) ∧
    s.runWith (driveChecked times) source =
      some (s.runWith (driveAlong times) source) ∧
    s.evalWith (driveChecked times) source =
      some (s.evalWith (driveAlong times) source) := by
  intro scan parsed
  exact ⟨Indexed.parse_eq scan firstId, Indexed.parseExpr_eq scan firstId,
    Machine.applyUnary_eq_none_iff, Machine.applyBinary_eq_none_iff,
    checkedRunAlong_ofProgram s times parsed.statements,
    checkedRunAlong_ofExpr s times, runWith_driveChecked s times source,
    evalWith_driveChecked s times source⟩

end Lox.Session
