import BareBones.CommandLine.Run
import BareBones.Proofs.CommandLine.Words
import BareBones.Proofs.Watching

/-!
What a run leaves behind. Writing a file changes the place that its path leads to and no
other (`FileTree.write_written`), and it is the last thing that a run does. So a run that
fails leaves all files as they were and prints nothing, and a run that goes well has compiled
the input that its words name and put the C text where they say, and nothing else
(`run_exact`).
-/

namespace BareBones.CommandLine

namespace FileTree

/-! ## Writing a file -/

theorem lookup_cons (q other : Place) (x : Entry) (es : List (Place × Entry)) :
    ((q, x) :: es).lookup other = if other = q then some x else es.lookup other := by
  by_cases h : other = q
  · rw [if_pos h, h, List.lookup_cons_self]
  · have hbeq : (other == q) = false := by simpa using h
    rw [if_neg h, List.lookup_cons, hbeq]

theorem lookup_replace (es : List (Place × Entry)) (place : Place) (entry : Entry)
    (other : Place) :
    (es.map fun e => if e.1 = place then (place, entry) else e).lookup other =
      if other = place then (es.lookup place).map fun _ => entry else es.lookup other := by
  induction es with
  | nil => simp
  | cons e es ih =>
    obtain ⟨q, x⟩ := e
    rw [List.map_cons, lookup_cons, lookup_cons]
    by_cases hq : q = place
    · rw [if_pos hq, if_pos hq.symm, lookup_cons, ih, hq]
      split <;> rfl
    · rw [if_neg hq, if_neg (Ne.symm hq), lookup_cons, ih]
      by_cases ho : other = q
      · rw [if_pos ho, if_pos ho, if_neg (by rwa [ho])]
      · rw [if_neg ho, if_neg ho]

/-- What stands at a place after something was put at `place`. -/
theorem lookup_insert (t : FileTree) (place : Place) (entry : Entry) (other : Place) :
    (t.insert place entry).entries.lookup other =
      if other = place then some entry else t.entries.lookup other := by
  unfold insert
  split
  · rename_i hsome
    obtain ⟨x, hx⟩ := Option.isSome_iff_exists.mp hsome
    rw [lookup_replace, hx]
    rfl
  · rename_i hnone
    have hplace : t.entries.lookup place = none := Option.not_isSome_iff_eq_none.mp hnone
    show (t.entries ++ [(place, entry)]).lookup other = _
    rw [List.lookup_append, lookup_cons, List.lookup_nil]
    by_cases ho : other = place
    · rw [if_pos ho, if_pos ho, ho, hplace]
      rfl
    · rw [if_neg ho, if_neg ho, Option.or_none]

@[simp] theorem here_insert (t : FileTree) (place : Place) (entry : Entry) :
    (t.insert place entry).here = t.here := by
  unfold insert
  split <;> rfl

/-- A path leads to the same place as long as the directories on its way stay. -/
theorem resolve_of_directories {t u : FileTree}
    (h : ∀ place, t.lookup place = .ok (some .directory) → u.lookup place = .ok (some .directory))
    {start place : Place} {steps : List String} (hr : t.resolve start steps = .ok place) :
    u.resolve start steps = .ok place := by
  induction steps generalizing start with
  | nil => exact hr
  | cons step rest ih =>
    unfold resolve at hr ⊢
    split at hr
    · cases hr
    · cases hr
    · rename_i hdirectory
      rw [h start hdirectory]
      dsimp only
      split
      · rw [if_pos ‹_›] at hr
        exact ih hr
      · rw [if_neg ‹_›] at hr
        split
        · rw [if_pos ‹_›] at hr
          exact ih hr
        · rw [if_neg ‹_›] at hr
          exact ih hr
    · cases hr

/-- The text `text` is at `path` in `u`, and everything else is as in `t`. A device that keeps
nothing stays what it is. -/
def Written (t : FileTree) (path text : String) (u : FileTree) : Prop :=
  ∃ place, t.find path = .ok place ∧ u.here = t.here ∧
    (∀ other, other ≠ place → u.entries.lookup other = t.entries.lookup other) ∧
    (t.entries.lookup place = some .null ∧ u = t ∨
      u.entries.lookup place = some (.file text.toUTF8) ∧ u.read path = .ok text)

theorem lookup_congr {t u : FileTree} {place : Place}
    (h : u.entries.lookup place = t.entries.lookup place) : u.lookup place = t.lookup place := by
  rw [lookup, lookup, h]

/-- What is found at a place other than the root is an entry. -/
theorem lookup_eq_ok {t : FileTree} {place : Place} {found : Option Entry}
    (h : t.lookup place = .ok found) (hroot : found ≠ some .directory) :
    found = t.entries.lookup place ∧ ∀ u : FileTree, u.lookup place = .ok (u.entries.lookup place) := by
  unfold lookup at h ⊢
  split at h
  · cases h
    exact absurd rfl hroot
  · split at h
    · cases h
    · rename_i name hname hlength
      cases h
      exact ⟨rfl, fun u => if_neg hlength⟩

/-- A file that is put where no directory is lies on the way to no other place. -/
theorem find_insert {t : FileTree} {path : String} {place : Place} (h : t.find path = .ok place)
    (hd : t.lookup place ≠ .ok (some .directory)) (entry : Entry) :
    (t.insert place entry).find path = .ok place := by
  unfold find at h ⊢
  split at h
  · cases h
  · rename_i hlength
    rw [if_neg hlength, here_insert]
    refine resolve_of_directories ?_ h
    intro q hq
    have hne : q ≠ place := by
      rintro rfl
      exact hd hq
    rw [lookup_congr, hq]
    rw [lookup_insert, if_neg hne]

theorem fromUTF8?_toUTF8 (s : String) : String.fromUTF8? s.toUTF8 = some s := by
  simp only [String.fromUTF8?, String.toUTF8_eq_toByteArray, dif_pos s.isValidUTF8]
  rfl

theorem read_of_file {t : FileTree} {path text : String} {place : Place}
    (hfind : t.find path = .ok place) (hlookup : t.lookup place = .ok (some (.file text.toUTF8)))
    (hpath : namesDirectory path = false) : t.read path = .ok text := by
  simp only [read, hfind, bind, Except.bind, hlookup, hpath, fromUTF8?_toUTF8]
  rfl

/-- What writing takes: a path that leads somewhere, and no directory there. -/
theorem write_eq_ok {t u : FileTree} {path text : String} (h : t.write path text = .ok u) :
    ∃ place found, t.find path = .ok place ∧ namesDirectory path = false ∧
      t.lookup place = .ok found ∧ found ≠ some .directory ∧
      (found = some .null ∧ u = t ∨ u = t.insert place (.file text.toUTF8)) := by
  unfold write at h
  cases hfind : t.find path with
  | error e =>
    rw [hfind] at h
    cases h
  | ok place =>
    rw [hfind] at h
    simp only [bind, Except.bind] at h
    cases hpath : namesDirectory path with
    | true =>
      rw [hpath] at h
      cases h
    | false =>
      cases hlookup : t.lookup place with
      | error e =>
        simp only [hpath, hlookup] at h
        cases h
      | ok found =>
        refine ⟨place, found, rfl, rfl, hlookup, ?_⟩
        simp only [hpath, hlookup] at h
        match found, h with
        | none, h =>
          cases h
          exact ⟨by simp, Or.inr rfl⟩
        | some .null, h =>
          cases h
          exact ⟨by simp, Or.inl ⟨rfl, rfl⟩⟩
        | some (.file content), h =>
          cases h
          exact ⟨by simp, Or.inr rfl⟩

/-- Writing puts the text where its path leads and changes nothing else. -/
theorem write_written {t u : FileTree} {path text : String} (h : t.write path text = .ok u) :
    t.Written path text u := by
  obtain ⟨place, found, hfind, hpath, hlookup, hd, hu⟩ := write_eq_ok h
  obtain ⟨rfl, hentry⟩ := lookup_eq_ok hlookup hd
  refine ⟨place, hfind, ?_⟩
  rcases hu with ⟨hnull, rfl⟩ | rfl
  · exact ⟨rfl, fun _ _ => rfl, Or.inl ⟨hnull, rfl⟩⟩
  · have hplace : (t.insert place (.file text.toUTF8)).entries.lookup place =
        some (.file text.toUTF8) := by
      rw [lookup_insert, if_pos rfl]
    refine ⟨here_insert _ _ _, ?_, Or.inr ⟨hplace, ?_⟩⟩
    · intro other ho
      rw [lookup_insert, if_neg ho]
    · have hdirectory : t.lookup place ≠ .ok (some .directory) := by
        rw [hlookup]
        exact fun he => hd (Except.ok.inj he)
      refine read_of_file (find_insert hfind hdirectory _) ?_ hpath
      rw [hentry, hplace]

end FileTree

/-! ## Runs -/

/-- A run on the files of a tree: what it leaves on its streams, and the tree afterwards. -/
def launch (words : List String) (t : FileTree) : Outcome × FileTree :=
  (run FileTree.files words).run t

/-- The job has been done: the text of the input was compiled under the name of its path, and
the C text stands where it should. Nothing else was written but what is watched. -/
def Job.Done (j : Job) (t : FileTree) (o : Outcome) (u : FileTree) : Prop :=
  ∃ (s : Source) (c : String), s.name = j.input ∧ t.read j.input = .ok s.text ∧
    (s.translate j.format j.watch).1 = .ok c ∧
    o.stderr = String.join ((s.events.filter j.watch.shows).map (Event.render s)) ∧
    (isStdout j.output = true ∧ o.stdout = c ∧ u = t ∨
      isStdout j.output = false ∧ o.stdout = "" ∧ t.Written j.output c u)

/-- A job on the files of a tree, step by step. -/
theorem Job.run_files (j : Job) (t : FileTree) : (j.run FileTree.files).run t =
    match t.read j.input with
    | .error e => ({ exit := 1, stderr := failure "Cannot access the input file" j.input e }, t)
    | .ok text =>
      let trace := String.join (Source.translate ⟨j.input, text⟩ j.format j.watch).2
      match (Source.translate ⟨j.input, text⟩ j.format j.watch).1 with
      | .error report => ({ exit := 1, stderr := trace ++ report.render }, t)
      | .ok c =>
        if isStdout j.output then ({ exit := 0, stdout := c, stderr := trace }, t)
        else
          match t.write j.output c with
          | .ok u => ({ exit := 0, stderr := trace }, u)
          | .error e =>
            ({ exit := 1, stderr := trace ++ failure "Failed to write output file" j.output e }, t) := by
  have hread : (FileTree.files.read j.input).run t = pure (t.read j.input, t) := rfl
  have hwrite (c : String) : (FileTree.files.write j.output c).run t =
      match t.write j.output c with
      | .ok u => pure (.ok (), u)
      | .error e => pure (.error e, t) := by
    cases hw : t.write j.output c with
    | ok u => simp [FileTree.files, hw]
    | error e => simp [FileTree.files, hw]
  rw [Job.run, StateT.run_bind, hread, pure_bind]
  cases t.read j.input with
  | error e => rfl
  | ok text =>
    dsimp only
    generalize Source.translate ⟨j.input, text⟩ j.format j.watch = answer
    obtain ⟨result, records⟩ := answer
    cases result with
    | error report => rfl
    | ok c =>
      dsimp only
      split
      · rfl
      · rw [StateT.run_bind, hwrite]
        cases t.write j.output c with
        | ok u => rfl
        | error e => rfl

/-- A job that is not done leaves no trace but on the error stream. -/
theorem Job.run_effects (j : Job) (t : FileTree) :
    (((j.run FileTree.files).run t).1.exit ≠ 0 →
      ((j.run FileTree.files).run t).2 = t ∧ ((j.run FileTree.files).run t).1.stdout = "") ∧
    (((j.run FileTree.files).run t).1.exit = 0 →
      j.Done t ((j.run FileTree.files).run t).1 ((j.run FileTree.files).run t).2) := by
  rw [j.run_files t]
  cases hread : t.read j.input with
  | error e => exact ⟨fun _ => ⟨rfl, rfl⟩, fun h => absurd h (by simp)⟩
  | ok text =>
    dsimp only
    have hrecords := congrArg String.join (Source.translate_snd ⟨j.input, text⟩ j.format j.watch)
    cases hresult : (Source.translate ⟨j.input, text⟩ j.format j.watch).1 with
    | error report => exact ⟨fun _ => ⟨rfl, rfl⟩, fun h => absurd h (by simp)⟩
    | ok c =>
      dsimp only
      cases hstdout : isStdout j.output with
      | true =>
        refine ⟨fun h => absurd rfl h, fun _ => ?_⟩
        exact ⟨⟨j.input, text⟩, c, rfl, hread, hresult, hrecords, Or.inl ⟨hstdout, rfl, rfl⟩⟩
      | false =>
        rw [if_neg (by simp)]
        cases hwrite : t.write j.output c with
        | ok u =>
          refine ⟨fun h => absurd rfl h, fun _ => ?_⟩
          exact ⟨⟨j.input, text⟩, c, rfl, hread, hresult, hrecords,
            Or.inr ⟨hstdout, rfl, FileTree.write_written hwrite⟩⟩
        | error e => exact ⟨fun _ => ⟨rfl, rfl⟩, fun h => absurd h (by simp)⟩

/-- A run that fails leaves every file as it was and nothing on its standard output. A run
that goes well was asked for help or for the version, or it has done the job that its words
ask for. -/
theorem launch_exact (words : List String) (t : FileTree) :
    ((launch words t).1.exit ≠ 0 → (launch words t).2 = t ∧ (launch words t).1.stdout = "") ∧
    ((launch words t).1.exit = 0 →
      (∃ before w after, words = before ++ w :: after ∧ "--" ∉ before ∧ AsksForInfo w ∧
        (launch words t).2 = t) ∨
      ∃ as j, Spells words as ∧ Argument.Requests as j ∧
        j.Done t (launch words t).1 (launch words t).2) := by
  unfold launch run
  cases hjob : Job.ofArguments words with
  | ok j =>
    obtain ⟨as, hspells, hrequests⟩ := (Job.ofArguments_eq_ok_iff words j).mp hjob
    obtain ⟨hfails, hdone⟩ := j.run_effects t
    exact ⟨hfails, fun h => Or.inr ⟨as, j, hspells, hrequests, hdone h⟩⟩
  | error halt =>
    cases halt with
    | usage e => exact ⟨fun _ => ⟨rfl, rfl⟩, fun h => absurd h (Nat.succ_ne_zero 1)⟩
    | help | version =>
      obtain ⟨before, w, after, hwords, hbefore, hasks⟩ :=
        Job.asksForInfo_of_ofArguments hjob trivial
      exact ⟨fun h => absurd rfl h, fun _ => Or.inl ⟨before, w, after, hwords, hbefore, hasks, rfl⟩⟩

/-- A working directory with one program in it. -/
def oneProgram : FileTree :=
  FileTree.fresh.addFile ["tmp", "work", "p.bb"] "let x = 2;\nprint(x);\n".toUTF8

theorem launch_exact_oneProgram :
    (launch ["--compact", "p.bb", "-o=x.c"] oneProgram).1.exit = 0 ∧
      ∃ as j, Spells ["--compact", "p.bb", "-o=x.c"] as ∧ Argument.Requests as j ∧
        j.Done oneProgram (launch ["--compact", "p.bb", "-o=x.c"] oneProgram).1
          (launch ["--compact", "p.bb", "-o=x.c"] oneProgram).2 := by
  have hexit : (launch ["--compact", "p.bb", "-o=x.c"] oneProgram).1.exit = 0 := by decide +kernel
  refine ⟨hexit, ?_⟩
  rcases (launch_exact ["--compact", "p.bb", "-o=x.c"] oneProgram).2 hexit with
    ⟨before, w, after, hwords, -, hasks, -⟩ | hdone
  · have hnone : ∀ w ∈ ["--compact", "p.bb", "-o=x.c"], ¬ AsksForInfo w := by decide
    exact absurd hasks (hnone w (by simp [hwords]))
  · exact hdone

end BareBones.CommandLine
