import BareBones.Syntax.Trace

/-!
Reading on demand. Tokens are taken one at a time from where they come from, no
more of them than it takes to finish or to find the fault, and what is watched is
written down as it happens.
-/

namespace BareBones

/-- Where tokens come from. Every token but `eof` uses something up. -/
structure Supply (σ : Type) where
  next : σ → Located Token × σ
  size : σ → Nat
  size_lt : ∀ k, (next k).1.val ≠ .eof → size (next k).2 < size k

/-- How a reading went: its result, the events that were written down, newest first,
and what the supply has left. -/
structure Account (σ : Type) where
  result : Reading Program
  log : List Event
  rest : σ

/-- Writes an event down if it is watched. -/
def Watch.note (w : Watch) (log : List Event) (e : Event) : List Event :=
  if w.shows e then e :: log else log

/-- Writes down that `t` has been taken at `p`, and the productions it enters. -/
def Watch.noteToken (w : Watch) (log : List Event) (p : Progress) (t : Located Token) :
    List Event :=
  ((p.enters t.val).map (.entered · t.span)).foldl w.note (w.note log (.pulled t))

namespace Supply

variable {σ : Type}

/-- Takes tokens up to the first that is no newline. -/
def skim (u : Supply σ) (w : Watch) (log : List Event) (k : σ) : List Event × σ :=
  let t := (u.next k).1
  let log := w.note log (.pulled t)
  if t.val = .newline then u.skim w log (u.next k).2 else (log, (u.next k).2)
termination_by u.size k
decreasing_by
  rename_i hnewline
  exact u.size_lt k (by rw [hnewline]; simp)

/-- Reads on from `p`. A name is judged only when the token behind it has been taken,
and nothing is taken behind `eof`. -/
def read (u : Supply σ) (w : Watch) (log : List Event) (p : Progress) (k : σ) : Account σ :=
  let t := (u.next k).1
  if t.val = .newline then u.read w (w.note log (.pulled t)) p (u.next k).2
  else
    let log := w.noteToken log p t
    match p.step t with
    | .error e =>
      if e.val.isName then
        let (log, rest) := u.skim w log (u.next k).2
        ⟨.error e, log, rest⟩
      else ⟨.error e, log, (u.next k).2⟩
    | .ok next =>
      if t.val = .eof then ⟨.ok next.program, log, (u.next k).2⟩
      else u.read w log next (u.next k).2
termination_by u.size k
decreasing_by
  · rename_i hnewline
    exact u.size_lt k (by rw [hnewline]; simp)
  · rename_i hne
    exact u.size_lt k hne

end Supply

/-- The tokens of a text, scanned as they are asked for. -/
def Cursor.supply : Supply Cursor where
  next := Cursor.next
  size k := k.rest.length
  size_lt := Cursor.next_rest_length_lt

/-- A reading of the whole source. -/
def Source.account (s : Source) (w : Watch) : Account Cursor :=
  Cursor.supply.read w [] .start s.cursor

end BareBones
