import Discharge.Term.Printer

namespace Discharge

/-- What stands for each written form; the first entry of a form counts. -/
abbrev Substitution := List (Text × Term)

namespace Substitution

def get? (m : Substitution) (form : Text) : Option Term :=
  (m.find? fun e => e.1 == form).map Prod.snd

def without (m : Substitution) (form : Text) : Substitution :=
  m.filter fun e => e.1 != form

end Substitution

namespace Term

mutual

/-- Replaces each outermost subterm that the substitution names. The parameters of an anonymous
function hide the entries of their names inside its body. -/
def substitute (m : Substitution) : Term → Term
  | symbol s => (m.get? s.name).getD (symbol s)
  | apply fn args k =>
    (m.get? (apply fn args k).render).getD (apply (fn.substitute m) (substituteAll m args) k)
  | lambda params body k =>
    (m.get? (lambda params body k).render).getD
      (lambda params (body.substitute (params.foldl (fun m p => m.without p.name) m)) k)
  | cases branches otherwise k =>
    (m.get? (cases branches otherwise k).render).getD
      (cases (substituteBranches m branches) (otherwise.substitute m) k)

def substituteAll (m : Substitution) : List Term → List Term
  | [] => []
  | t :: rest => t.substitute m :: substituteAll m rest

def substituteBranches (m : Substitution) : List (Term × Term) → List (Term × Term)
  | [] => []
  | (result, condition) :: rest =>
    (result.substitute m, condition.substitute m) :: substituteBranches m rest

end

end Term

end Discharge
