import Lox.Proofs.Scope.Effect

/-!
# Where `return` stands

The scope rules report a `return` outside of functions.  So the statements of
an accepted program, down to the functions in it, are free of `return`
(`returnFree_of_accepted`).
-/

namespace Lox

mutual

/-- The statement has no `return` outside of functions. -/
def Stmt.ReturnFree : Stmt → Prop
  | .block body => Stmt.AllReturnFree body
  | .ifElse _ thenBranch none => thenBranch.ReturnFree
  | .ifElse _ thenBranch (some elseBranch) =>
    thenBranch.ReturnFree ∧ elseBranch.ReturnFree
  | .while _ body => body.ReturnFree
  | .return _ _ => False
  | _ => True

/-- The statements have no `return` outside of functions. -/
def Stmt.AllReturnFree : List Stmt → Prop
  | [] => True
  | s :: rest => s.ReturnFree ∧ Stmt.AllReturnFree rest

end

namespace Scope

/-- Statements that are walked in the body of a program and without a report
are free of `return` if each of them is. -/
theorem allReturnFree_of_walk {list : List Stmt} {st : State}
    (ih : ∀ s ∈ list, ∀ st : State, st.body = .program →
      (walkStmt s st).reports = [] → s.ReturnFree)
    (hbody : st.body = .program) (h : (walkStmts list st).reports = []) :
    Stmt.AllReturnFree list := by
  induction list generalizing st with
  | nil => simp only [Stmt.AllReturnFree]
  | cons s rest ihrest =>
    rw [walkStmts] at h
    obtain ⟨hs, hrest⟩ := List.forall_mem_cons.1 ih
    have heffect := effect_walkStmt s st
    rw [Stmt.AllReturnFree]
    exact ⟨hs st hbody ((effect_walkStmts rest _).reports_eq_nil h),
      ihrest hrest (heffect.body.trans hbody) h⟩

theorem returnFree_of_walk {s : Stmt} {st : State}
    (hbody : st.body = .program) (h : (walkStmt s st).reports = []) :
    s.ReturnFree := by
  induction s generalizing st with
  | block body ih =>
    rw [walkStmt] at h
    have henter : (st.enter []).body = .program := hbody
    rw [Stmt.ReturnFree]
    exact allReturnFree_of_walk (fun s hs _ => ih s hs) henter h
  | ifElse condition thenBranch elseBranch ihthen ihelse =>
    have hcondition := effect_walkExpr condition st
    cases elseBranch with
    | none =>
      rw [walkStmt] at h
      rw [Stmt.ReturnFree]
      exact ihthen (hcondition.body.trans hbody) h
    | some elseBranch =>
      rw [walkStmt] at h
      rw [Stmt.ReturnFree]
      have hthen := effect_walkStmt thenBranch (walkExpr condition st)
      have helse := effect_walkStmt elseBranch
        (walkStmt thenBranch (walkExpr condition st))
      exact ⟨ihthen (hcondition.body.trans hbody) (helse.reports_eq_nil h),
        ihelse elseBranch rfl
          (hthen.body.trans (hcondition.body.trans hbody)) h⟩
  | loop condition body ih =>
    rw [walkStmt] at h
    rw [Stmt.ReturnFree]
    exact ih ((effect_walkExpr condition st).body.trans hbody) h
  | giveBack line value =>
    rw [walkStmt] at h
    have hcheck := (effect_walkOption value _).reports_eq_nil h
    have hreported := (State.effect_reportIf _ _ _ _ _).reports_eq_nil hcheck
    simp [hbody, State.reportIf, State.report] at hreported
  | _ => simp only [Stmt.ReturnFree]

/-- An accepted program is free of `return`. -/
theorem returnFree_of_accepted {program : List Stmt} {distances : Distances}
    (h : (resolve program distances).diagnostics = []) :
    Stmt.AllReturnFree program := by
  rw [resolve_eq] at h
  exact allReturnFree_of_walk (fun s _ _ => returnFree_of_walk) rfl
    (List.reverse_eq_nil_iff.1 h)

end Scope

end Lox
