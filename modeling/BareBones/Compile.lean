import BareBones.C.Lower
import BareBones.Report
import BareBones.Syntax.Supply

/-!
From source text to C text, or to a report on the first fault.
-/

namespace BareBones

/-- The report on a fault in `s`. -/
def Source.report (s : Source) (e : Located ParseError) : Report :=
  { label := e.val.label, complaints := [⟨e.val.message, s, e.span⟩] }

def Source.compile (s : Source) (f : C.Format) : Except Report String :=
  match s.parse with
  | .ok p => .ok (p.toC f)
  | .error e => .error (s.report e)

/-- What becomes of a source while it is watched: its C text or the report on its first
fault, and a record of each event that shows. -/
def Source.translate (s : Source) (f : C.Format) (w : Watch) :
    Except Report String × List String :=
  let account := s.account w
  let outcome := match account.result with
    | .ok p => .ok (p.toC f)
    | .error e => .error (s.report e)
  (outcome, account.log.reverse.map (Event.render s))

end BareBones
