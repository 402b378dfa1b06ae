import Lox.Proofs.Machine.Run

/-!
# The trail of a run

A log holds the steps that were done, each machine with the setting it took
its step in.  A run leaves a trail: one entry for each of its times.
-/

namespace Lox.Machine

/-- The steps that were done, in order: machines with their settings. -/
abbrev Log := List (Setting × Machine)

/-- The steps of a run, one at each of the times. -/
def trail (setting : Float → Setting) : List Float → Machine → Log
  | [], _ => []
  | now :: times, m =>
    (setting now, m) :: trail setting times (step (setting now) m)

/-- What is said holds of all native functions. -/
def Setting.All (P : Behaviour → Prop) (set : Setting) : Prop :=
  ∀ (i : Nat) (behaviour : Behaviour), set.natives[i]? = some behaviour →
    P behaviour

theorem Setting.All.mono {P Q : Behaviour → Prop} {set : Setting}
    (h : set.All P) (himp : ∀ behaviour, P behaviour → Q behaviour) :
    set.All Q :=
  fun i behaviour hi => himp behaviour (h i behaviour hi)

end Lox.Machine
