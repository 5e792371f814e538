import ChipPascal.Diagnostic

/-!
# Findings of a check

A check reports what is wrong and goes on. A fault ends it, and keeps what was reported before.
-/

namespace ChipPascal

/-- What a check reports, and the fault that ended it early, if one did. -/
structure Findings (ε : Type) where
  reports : List ε
  fault : Option Fault

namespace Findings

variable {ε : Type}

def clean : Findings ε := ⟨[], none⟩

def report (e : ε) : Findings ε := ⟨[e], none⟩

def stop (fault : Fault) : Findings ε := ⟨[], some fault⟩

/-- First `a`, then `b`, unless `a` ended early. -/
def andThen (a b : Findings ε) : Findings ε :=
  match a.fault with
  | some fault => ⟨a.reports, some fault⟩
  | none => ⟨a.reports ++ b.reports, b.fault⟩

instance : Append (Findings ε) := ⟨andThen⟩

def ofFault (fault : Option Fault) : Findings ε := ⟨[], fault⟩

theorem append_def (a b : Findings ε) : a ++ b = a.andThen b := rfl

@[simp] theorem clean_append (a : Findings ε) : clean ++ a = a := rfl

@[simp] theorem append_clean (a : Findings ε) : a ++ clean = a := by
  obtain ⟨reports, _ | fault⟩ := a <;> simp [append_def, andThen, clean]

@[simp] theorem stop_append (fault : Fault) (a : Findings ε) : stop fault ++ a = stop fault := rfl

end Findings

end ChipPascal
