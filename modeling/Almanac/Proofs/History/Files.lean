import Almanac.CommandLine.Session
import Almanac.Proofs.Evaluation.Cells
import Almanac.Proofs.History.Storable

/-!
Computations on a host: what they give, where they crash, and what they leave in the file of a
history. The only thing that crashes is printing a table as text when one of its cells is too long.
Printing leaves the file alone, whether it comes to its end or not.
-/

namespace Almanac

/-- A header or a cell is longer than a cell can be filled up to. -/
def Grid.Overfull (grid : Grid) : Prop :=
  ∃ cells ∈ grid.headers :: grid.rows, ∃ cell ∈ cells, widthLimit < cell.length

instance (grid : Grid) : Decidable grid.Overfull :=
  inferInstanceAs (Decidable (∃ cells ∈ grid.headers :: grid.rows, ∃ cell ∈ cells,
    Grid.widthLimit < cell.length))

theorem Output.lines_cases (output : Output) :
    (∃ lines, output.lines = .ok lines) ∨ output.lines = .error Grid.tooWideMessage := by
  cases output with
  | table grid =>
    rw [lines, Grid.printed]
    split
    · exact .inl ⟨_, rfl⟩
    · exact .inr rfl
  | _ => exact .inl ⟨_, rfl⟩

theorem Output.exists_eq_table {output : Output} {reason : String}
    (h : output.lines = .error reason) : ∃ grid, output = .table grid := by
  cases output with
  | table grid => exact ⟨grid, rfl⟩
  | _ => cases h

/-- A value that is too long is a cell that is, unless a table shows a name in its place. -/
theorem Dataset.WellFormed.overfull_ofDataset {ds : Dataset} {c : Column} {value : String}
    (hds : ds.WellFormed) (hc : c ∈ ds.columns) (hvalue : value ∈ c.values)
    (hname : c.name ≠ Weather.codeRow) (hlong : Grid.widthLimit < value.length) :
    (Grid.ofDataset ds).Overfull := by
  obtain ⟨place, hplace⟩ := List.getElem?_of_mem hc
  obtain ⟨day, hday⟩ := List.getElem?_of_mem hvalue
  obtain ⟨row, hrow, hcell⟩ := hds.cell_ofDataset_iff.mpr ⟨c, value, hplace, hday, rfl⟩
  refine ⟨row, List.mem_cons_of_mem _ (List.mem_of_getElem? hrow), _, List.mem_of_getElem? hcell,
    ?_⟩
  rw [Weather.cell, if_neg hname, String.length_append]
  omega

namespace Environment

open CommandLine (Format)

variable {env : Environment} {format : Format} {line : String}

theorem shown_of_table {q : Query}
    (hq : Query.parse env.table env.dataset.length false line = .ok q)
    (hcommand : q.command = "table") :
    (env.submit line).shown = [.echo line, .table (Grid.ofDataset env.dataset)] := by
  have haction : Action.ofQuery q = .ok .table := by
    unfold Action.ofQuery
    rw [hcommand]
    rfl
  rw [submit, execute, hq]
  dsimp only
  rw [evaluate_of_action haction]
  rfl

/-- The table of the dataset is shown as text, and it is overfull. -/
def Overfull (env : Environment) (format : Format) (line : String) : Prop :=
  format = .pretty ∧ .table (Grid.ofDataset env.dataset) ∈ (env.submit line).shown ∧
    (Grid.ofDataset env.dataset).Overfull

instance : Decidable (env.Overfull format line) :=
  inferInstanceAs (Decidable (_ ∧ _ ∧ _))

/-- The table of the dataset is the only one that is shown. -/
theorem eq_ofDataset_of_mem_shown {grid : Grid} (h : .table grid ∈ (env.submit line).shown) :
    grid = Grid.ofDataset env.dataset ∧ .clear ∉ (env.submit line).shown := by
  rcases env.submit_cases line with ⟨_, _, _, _, _, _, hdisplays, _, hshown⟩ | ⟨_, -, hshown⟩
  · rw [hshown] at h ⊢
    cases hdisplays <;> simp_all [Output.helpFor]
  · simp [hshown] at h

theorem overfull_iff :
    env.Overfull format line ↔
      format = .pretty ∧
        ∃ output ∈ (env.submit line).shown, output.lines = .error Grid.tooWideMessage := by
  have hrectangular := env.dataset.rectangular_ofDataset
  refine and_congr_right fun _ => ⟨fun ⟨hmem, hover⟩ =>
    ⟨_, hmem, hrectangular.printed_eq_error_iff.mpr hover⟩, ?_⟩
  rintro ⟨output, hmem, hlines⟩
  obtain ⟨grid, rfl⟩ := output.exists_eq_table hlines
  obtain ⟨rfl, -⟩ := eq_ofDataset_of_mem_shown hmem
  exact ⟨hmem, hrectangular.printed_eq_error_iff.mp hlines⟩

/-- An error is shown without a table. -/
theorem not_overfull_of_invalid
    (hline : Query.isValid env.table env.dataset.length false line = false) :
    ¬ env.Overfull format line := by
  rintro ⟨-, hmem, -⟩
  rcases env.submit_cases line with ⟨q, hq, _⟩ | ⟨_, -, hshown⟩
  · rw [Query.isValid, hq] at hline
    cases hline
  · simp [hshown] at hmem

end Environment

namespace CommandLine

variable {σ α β : Type}

/-- A host on which a file reads back as it was written, and printing leaves it alone. -/
structure KeepsFile (host : Host (StateM σ)) (path : String) (file : σ → Option String) : Prop where
  read : ∀ s, ((host.read path).run s).1 = (file s).elim (.error .missing) .ok
  file_read : ∀ s, file ((host.read path).run s).2 = file s
  write : ∀ text s, ((host.write path text).run s).1 = .ok ()
  file_write : ∀ text s, file ((host.write path text).run s).2 = some text
  file_say : ∀ line s, file ((host.say line).run s).2 = file s
  file_warn : ∀ line s, file ((host.warn line).run s).2 = file s

namespace Memory

theorem lookup_save (path text : String) (files : List (String × String)) :
    (save path text files).lookup path = some text := by
  induction files with
  | nil => simp [save]
  | cons entry rest ih =>
    obtain ⟨other, old⟩ := entry
    by_cases h : other = path
    · simp [save, h]
    · have hne : (path == other) = false := by simpa using Ne.symm h
      simp [save, h, List.lookup_cons, hne, ih]

theorem run_read (path : String) (memory : Memory) :
    (host.read path).run memory =
      ((memory.file? path).elim (.error .missing) .ok, memory) := by
  cases h : memory.file? path <;> simp [host, h] <;> rfl

/-- Files in memory read back. -/
theorem keepsFile_host (path : String) :
    KeepsFile host path fun memory : Memory => memory.file? path where
  read memory := by rw [run_read]
  file_read memory := by rw [run_read]
  write text memory := rfl
  file_write text memory := lookup_save path text memory.files
  file_say line memory := rfl
  file_warn line memory := rfl

end Memory

/-! Computations -/

/-- A computation that succeeds from a state, with its value and the state afterwards. -/
def Gives (x : ExceptT Interruption (StateM σ) α) (s : σ) (a : α) (s' : σ) : Prop :=
  x.run.run s = (.ok a, s')

/-- A computation that crashes, with the reason and the state afterwards. -/
def Crashes (x : ExceptT Interruption (StateM σ) α) (s : σ) (reason : String) (s' : σ) : Prop :=
  x.run.run s = (.error (.crash reason), s')

section

variable {x : ExceptT Interruption (StateM σ) α} {f : α → ExceptT Interruption (StateM σ) β}
  {s s' s'' : σ} {a : α} {b : β} {reason : String}

theorem gives_pure (a : α) (s : σ) : Gives (pure a) s a s := rfl

theorem gives_liftM (x : StateM σ α) (s : σ) : Gives (liftM x) s (x.run s).1 (x.run s).2 := rfl

theorem Gives.bind (hx : Gives x s a s') (hf : Gives (f a) s' b s'') :
    Gives (x >>= f) s b s'' := by
  unfold Gives at *
  rw [ExceptT.run_bind, StateT.run_bind, hx]
  exact hf

theorem Gives.bind_crashes (hx : Gives x s a s') (hf : Crashes (f a) s' reason s'') :
    Crashes (x >>= f) s reason s'' := by
  unfold Gives Crashes at *
  rw [ExceptT.run_bind, StateT.run_bind, hx]
  exact hf

theorem Crashes.bind (hx : Crashes x s reason s') : Crashes (x >>= f) s reason s' := by
  unfold Crashes at *
  rw [ExceptT.run_bind, StateT.run_bind, hx]
  rfl

theorem Gives.map (h : Gives x s a s') (f : α → β) : Gives (f <$> x) s (f a) s' := by
  unfold Gives at *
  rw [ExceptT.run_map, StateT.run_map, h]
  rfl

theorem Crashes.map (h : Crashes x s reason s') (f : α → β) :
    Crashes (f <$> x) s reason s' := by
  unfold Crashes at *
  rw [ExceptT.run_map, StateT.run_map, h]
  rfl

theorem Gives.not_crashes (h : Gives x s a s') : ¬ Crashes x s reason s'' := by
  unfold Gives Crashes at *
  rw [h]
  rintro ⟨⟩

end

section

variable {host : Host (StateM σ)} {path : String} {file : σ → Option String}

/-! Printing -/

theorem file_sayAll (hhost : KeepsFile host path file) (lines : List String) (s : σ) :
    file ((sayAll host lines).run s).2 = file s := by
  induction lines generalizing s with
  | nil => rfl
  | cons line rest ih => exact (ih _).trans (hhost.file_say line s)

theorem exists_sayOutput (hhost : KeepsFile host path file) {format : Format} {output : Output}
    (h : format = .pretty → ∃ lines, output.lines = .ok lines) (s : σ) :
    ∃ s', Gives (sayOutput host format output) s () s' ∧ file s' = file s := by
  unfold sayOutput
  split
  · exact ⟨_, gives_liftM _ s, hhost.file_say _ s⟩
  · exact ⟨_, gives_liftM _ s, hhost.file_warn _ s⟩
  · obtain ⟨lines, hlines⟩ := h rfl
    rw [hlines]
    exact ⟨_, gives_liftM _ s, file_sayAll hhost lines s⟩

theorem crashes_sayOutput {output : Output} {reason : String}
    (h : output.lines = .error reason) (s : σ) :
    Crashes (sayOutput host .pretty output) s reason s := by
  obtain ⟨grid, rfl⟩ := output.exists_eq_table h
  unfold sayOutput
  dsimp only
  rw [h]
  rfl

theorem exists_sayOutputs (hhost : KeepsFile host path file) {format : Format}
    {outputs : List Output}
    (h : ∀ output ∈ outputs, format = .pretty → ∃ lines, output.lines = .ok lines) (s : σ) :
    ∃ s', Gives (sayOutputs host format outputs) s () s' ∧ file s' = file s := by
  induction outputs generalizing s with
  | nil => exact ⟨s, gives_pure () s, rfl⟩
  | cons output rest ih =>
    obtain ⟨houtput, hrest⟩ := List.forall_mem_cons.mp h
    obtain ⟨middle, hfirst, hmiddle⟩ := exists_sayOutput hhost houtput s
    obtain ⟨s', hothers, hfile⟩ := ih hrest middle
    exact ⟨s', hfirst.bind hothers, hfile.trans hmiddle⟩

/-- What stands before the output that cannot be printed is printed. -/
theorem exists_crashes_sayOutputs (hhost : KeepsFile host path file) {outputs : List Output}
    (h : ∃ output ∈ outputs, output.lines = .error Grid.tooWideMessage) (s : σ) :
    ∃ s', Crashes (sayOutputs host .pretty outputs) s Grid.tooWideMessage s' ∧
      file s' = file s := by
  induction outputs generalizing s with
  | nil =>
    obtain ⟨output, hmem, -⟩ := h
    cases hmem
  | cons output rest ih =>
    rcases output.lines_cases with ⟨lines, hlines⟩ | hlines
    · have hrest : ∃ other ∈ rest, other.lines = .error Grid.tooWideMessage := by
        simpa [hlines] using h
      obtain ⟨middle, hfirst, hmiddle⟩ := exists_sayOutput hhost (fun _ => ⟨lines, hlines⟩) s
      obtain ⟨s', hothers, hfile⟩ := ih hrest middle
      exact ⟨s', hfirst.bind_crashes hothers, hfile.trans hmiddle⟩
    · exact ⟨s, (crashes_sayOutput hlines s).bind, rfl⟩

/-! Loading and saving -/

def Holds (file : σ → Option String) (history : History) (s : σ) : Prop :=
  (∀ entry ∈ history, entry.Storable) ∧
    (file s = some history.toText ∨ file s = none ∧ history = [])

/-- A history that is held is loaded, and is held as before. -/
theorem Holds.exists_readHistory (hhost : KeepsFile host path file) {history : History} {s : σ}
    (h : Holds file history s) :
    ∃ s', Gives (readHistory host path) s history s' ∧ Holds file history s' := by
  obtain ⟨hstorable, hfile⟩ := h
  have hsame := hhost.file_read s
  have hread := hhost.read s
  refine ⟨((host.read path).run s).2, ?_, hstorable, by rwa [hsame]⟩
  have hlift := gives_liftM (host.read path) s
  rw [hread] at hlift
  rcases hfile with hfile | ⟨hfile, rfl⟩
  · rw [hfile] at hlift
    refine hlift.bind ?_
    dsimp only [Option.elim_some]
    rw [History.parse?_toText hstorable]
    exact gives_pure history _
  · rw [hfile] at hlift
    exact hlift.bind (gives_pure [] _)

theorem exists_saveHistory (hhost : KeepsFile host path file) (history : History) (s : σ) :
    ∃ s', Gives (saveHistory host path history) s () s' ∧ file s' = some history.toText := by
  refine ⟨((host.write path history.toText).run s).2, ?_, hhost.file_write _ s⟩
  have hlift := gives_liftM (host.write path history.toText) s
  rw [hhost.write] at hlift
  exact hlift.bind (gives_pure () _)

end

end CommandLine

end Almanac
