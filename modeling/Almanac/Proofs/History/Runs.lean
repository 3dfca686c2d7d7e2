import Almanac.Proofs.History.Files
import Mathlib.Data.List.DropRight

/-!
Whole runs over a history file. Lines are submitted one after another, in any environments, and
in between the history may be cleared or loaded again. A program that crashed is started again.
The file always loads, and it holds the queries since the history was last cleared, except for
those that the program did not survive: their table was to be printed as text and was overfull.
-/

namespace Almanac.CommandLine

variable {σ : Type}

inductive Act where
  | submit (env : Environment) (format : Format) (line : String)
  | reload
  | clear

/-- A program that crashed is started again, and its history is that of the file. -/
def orRestart {m : Type → Type} [Monad m] (host : Host m) (path : String)
    (attempt : ExceptT Interruption m History) : ExceptT Interruption m History :=
  tryCatch attempt fun
    | .trouble trouble => refuse trouble
    | .crash _ => readHistory host path

namespace Act

def perform {m : Type → Type} [Monad m] (host : Host m) (path : String) (history : History) :
    Act → ExceptT Interruption m History
  | submit env format line =>
    orRestart host path (Prod.snd <$> submitInto host path format env history line)
  | reload => readHistory host path
  | clear => do
    saveHistory host path []
    pure []

/-- The entry for a submission that is a query and that the program survives. -/
def entry? : Act → Option HistoryEntry
  | submit env format line =>
    if Query.isValid env.table env.dataset.length false line ∧ ¬ env.Overfull format line then
      some ⟨line, (env.submit line).shown⟩
    else none
  | reload => none
  | clear => none

def clears : Act → Bool
  | submit env _ line =>
    Query.isValid env.table env.dataset.length false line &&
      (env.submit line).shown.contains .clear
  | reload => false
  | clear => true

/-- Positions in a submitted line fit into a machine word, and the numbers that are shown for it
are the ones that their texts stand for. -/
def Storable : Act → Prop
  | submit env _ line =>
    Text.byteLength line < Json.wordLimit ∧
      ∀ output ∈ (env.submit line).shown, output.NumbersReadBack
  | reload => True
  | clear => True

def after (act : Act) (history : History) : History :=
  if act.clears then [] else history ++ act.entry?.toList

end Act

open Environment (isolated)

/-- The entries since the history was last cleared. -/
def keptBy (acts : List Act) : History :=
  (acts.rtakeWhile fun act => !act.clears).filterMap Act.entry?

theorem keptBy_concat (acts : List Act) (act : Act) :
    keptBy (acts ++ [act]) = act.after (keptBy acts) := by
  unfold keptBy Act.after
  rw [List.rtakeWhile_concat]
  by_cases h : act.clears = true
  · simp [h]
  · cases hentry : act.entry? <;> simp [h, hentry]

variable {host : Host (StateM σ)} {path : String} {file : σ → Option String} {env : Environment}
  {format : Format} {line : String}

theorem Gives.orRestart {x : ExceptT Interruption (StateM σ) History} {history : History}
    {s s' : σ} (h : Gives x s history s') : Gives (orRestart host path x) s history s' := by
  unfold Gives CommandLine.orRestart at *
  rw [ExceptT.run_tryCatch, StateT.run_bind, h]
  rfl

theorem Crashes.orRestart {x : ExceptT Interruption (StateM σ) History} {history : History}
    {reason : String} {s s' s'' : σ} (h : Crashes x s reason s')
    (hload : Gives (readHistory host path) s' history s'') :
    Gives (orRestart host path x) s history s'' := by
  unfold Gives Crashes CommandLine.orRestart at *
  rw [ExceptT.run_tryCatch, StateT.run_bind, h]
  exact hload

/-- What is shown for a line is printed, unless its table is overfull. -/
theorem exists_sayOutputs_shown (hhost : KeepsFile host path file)
    (hfits : ¬ env.Overfull format line) (s : σ) :
    ∃ s', Gives (sayOutputs host format (env.submit line).shown) s () s' ∧ file s' = file s := by
  refine exists_sayOutputs hhost (fun output hmem hpretty => ?_) s
  rcases output.lines_cases with hlines | hlines
  · exact hlines
  · exact absurd (Environment.overfull_iff.mpr ⟨hpretty, output, hmem, hlines⟩) hfits

/-- A line that is no query changes neither the history nor the file. -/
theorem exists_submitInto_of_invalid (hhost : KeepsFile host path file) (format : Format)
    (hline : Query.isValid env.table env.dataset.length false line = false) (history : History)
    (s : σ) :
    ∃ s', Gives (submitInto host path format env history line) s (env.submit line, history) s' ∧
      file s' = file s := by
  have hfits : ¬ env.Overfull format line := Environment.not_overfull_of_invalid hline
  obtain ⟨s', hsay, hfile⟩ := exists_sayOutputs_shown hhost hfits s
  refine ⟨s', ?_, hfile⟩
  have hrecorded : env.submitRecorded history line = ⟨env.submit line, none⟩ := by
    simp [Environment.submitRecorded, hline]
  unfold submitInto
  rw [hrecorded]
  exact hsay.bind (gives_pure _ _)

/-- A query that is printed is saved, with all that it showed, unless it cleared the history. -/
theorem exists_submitInto_of_valid (hhost : KeepsFile host path file)
    (hline : Query.isValid env.table env.dataset.length false line = true)
    (hfits : ¬ env.Overfull format line) (history : History) (s : σ) :
    ∃ s', Gives (submitInto host path format env history line) s
        (env.submit line, history.record line (env.submit line).shown) s' ∧
      file s' = some (history.record line (env.submit line).shown).toText := by
  obtain ⟨middle, hsay, -⟩ := exists_sayOutputs_shown hhost hfits s
  obtain ⟨s', hsave, hfile⟩ :=
    exists_saveHistory hhost (history.record line (env.submit line).shown) middle
  refine ⟨s', ?_, hfile⟩
  have hrecorded : env.submitRecorded history line =
      ⟨env.submit line, some (history.record line (env.submit line).shown)⟩ := by
    simp [Environment.submitRecorded, hline]
  unfold submitInto
  rw [hrecorded]
  exact hsay.bind (hsave.bind (gives_pure _ _))

/-- An overfull table brings the program down before anything is saved. -/
theorem exists_submitInto_of_overfull (hhost : KeepsFile host path file)
    (hover : env.Overfull format line) (history : History) (s : σ) :
    ∃ s', Crashes (submitInto host path format env history line) s Grid.tooWideMessage s' ∧
      file s' = file s := by
  obtain ⟨rfl, hlines⟩ := Environment.overfull_iff.mp hover
  obtain ⟨s', hcrash, hfile⟩ := exists_crashes_sayOutputs hhost hlines s
  have hshown : (env.submitRecorded history line).submission = env.submit line := by
    unfold Environment.submitRecorded
    split <;> rfl
  rw [← hshown] at hcrash
  exact ⟨s', hcrash.bind, hfile⟩

/-- What is left after a submission can be kept in a file. -/
theorem storable_record {history : History} (hold : ∀ entry ∈ history, entry.Storable)
    (hact : (Act.submit env format line).Storable) :
    ∀ entry ∈ history.record line (env.submit line).shown, entry.Storable := by
  intro entry hentry
  unfold History.record at hentry
  split at hentry
  · cases hentry
  · rcases List.mem_append.mp hentry with hbefore | hnew
    · exact hold entry hbefore
    · obtain rfl := List.mem_singleton.mp hnew
      exact env.storable_of_submit hact.1 hact.2

theorem after_submit_of_valid
    (hline : Query.isValid env.table env.dataset.length false line = true)
    (hfits : ¬ env.Overfull format line) (history : History) :
    (Act.submit env format line).after history = history.record line (env.submit line).shown := by
  simp [Act.after, Act.clears, Act.entry?, History.record, hline, hfits]

/-- An overfull table is no query that clears the history. -/
theorem after_submit_of_overfull (hover : env.Overfull format line) (history : History) :
    (Act.submit env format line).after history = history := by
  obtain ⟨-, hclear⟩ := Environment.eq_ofDataset_of_mem_shown hover.2.1
  simp [Act.after, Act.clears, Act.entry?, hover, hclear]

/-- One act: the program goes on, and the file keeps what the act leaves. -/
theorem Holds.exists_perform (hhost : KeepsFile host path file) {history : History} {s : σ}
    (h : Holds file history s) {act : Act} (hact : act.Storable) :
    ∃ s', Gives (act.perform host path history) s (act.after history) s' ∧
      Holds file (act.after history) s' := by
  cases act with
  | submit env format line =>
    by_cases hover : env.Overfull format line
    · rw [after_submit_of_overfull hover]
      obtain ⟨crashed, hcrash, hfile⟩ := exists_submitInto_of_overfull hhost hover history s
      have hcrashed : Holds file history crashed := ⟨h.1, by rw [hfile]; exact h.2⟩
      obtain ⟨s', hload, hholds⟩ := hcrashed.exists_readHistory hhost
      exact ⟨s', (hcrash.map Prod.snd).orRestart hload, hholds⟩
    · cases hline : Query.isValid env.table env.dataset.length false line with
      | false =>
        have hafter : (Act.submit env format line).after history = history := by
          simp [Act.after, Act.clears, Act.entry?, hline]
        obtain ⟨s', hgives, hfile⟩ := exists_submitInto_of_invalid hhost format hline history s
        rw [hafter]
        exact ⟨s', (hgives.map Prod.snd).orRestart, h.1, by rw [hfile]; exact h.2⟩
      | true =>
        obtain ⟨s', hgives, hfile⟩ := exists_submitInto_of_valid hhost hline hover history s
        rw [after_submit_of_valid hline hover]
        exact ⟨s', (hgives.map Prod.snd).orRestart, storable_record h.1 hact, .inl hfile⟩
  | reload =>
    have hafter : Act.reload.after history = history := List.append_nil history
    rw [hafter]
    exact h.exists_readHistory hhost
  | clear =>
    obtain ⟨s', hgives, hfile⟩ := exists_saveHistory hhost [] s
    exact ⟨s', hgives.bind (gives_pure [] s'), List.forall_mem_nil _, .inl hfile⟩

/-- A run of acts: the induction is on its last act, since what is kept is what comes after the
last time that the history was cleared. -/
theorem exists_foldlM_perform (hhost : KeepsFile host path file) {s : σ} (hs : Holds file [] s)
    {acts : List Act} (hacts : ∀ act ∈ acts, act.Storable) :
    ∃ s', Gives (acts.foldlM (Act.perform host path) []) s (keptBy acts) s' ∧
      Holds file (keptBy acts) s' := by
  induction acts using List.reverseRecOn with
  | nil => exact ⟨s, gives_pure [] s, hs⟩
  | append_singleton acts act ih =>
    obtain ⟨hbefore, hact⟩ := List.forall_mem_append.mp hacts
    obtain ⟨middle, hrun, hholds⟩ := ih hbefore
    obtain ⟨s', hstep, hkept⟩ :=
      hholds.exists_perform hhost (List.forall_mem_singleton.mp hact)
    rw [List.foldlM_append, keptBy_concat]
    refine ⟨s', hrun.bind ?_, hkept⟩
    rw [List.foldlM_cons]
    exact hstep.bind (gives_pure _ s')

/-! A table that is too wide -/

def ofOneValue (value : String) : Environment :=
  { isolated with dataset := ⟨[⟨"date", ["2024-04-24"]⟩, ⟨"t", [value]⟩]⟩ }

theorem wellFormed_ofOneValue (value : String) : (ofOneValue value).dataset.WellFormed :=
  (Dataset.check_eq_ok_iff _).mp rfl

theorem exists_parse_table (value : String) : ∃ q,
    Query.parse (ofOneValue value).table (ofOneValue value).dataset.length false "table" = .ok q ∧
      q.command = "table" := by
  have htokens : tokenize "table" = [⟨"table", 0⟩] := by decide +kernel
  unfold Query.parse
  rw [htokens]
  exact ⟨_, Query.ofTokens_cons_eq_ok_iff.mpr ⟨CommandTable.builtin.commands[7], _, [], [],
    ⟨rfl, by decide, rfl, rfl⟩, .nil, rfl⟩, rfl⟩

theorem isValid_table (value : String) :
    Query.isValid (ofOneValue value).table (ofOneValue value).dataset.length false "table" =
      true := by
  obtain ⟨q, hq, -⟩ := exists_parse_table value
  rw [Query.isValid, hq]

theorem shown_table (value : String) :
    ((ofOneValue value).submit "table").shown =
      [.echo "table", .table (Grid.ofDataset (ofOneValue value).dataset)] := by
  obtain ⟨q, hq, hname⟩ := exists_parse_table value
  exact Environment.shown_of_table hq hname

theorem overfull_table {value : String} (hlong : Grid.widthLimit < value.length) :
    (ofOneValue value).Overfull .pretty "table" := by
  have hname : "t" ≠ Weather.codeRow := by decide
  refine ⟨rfl, by simp [shown_table], ?_⟩
  exact (wellFormed_ofOneValue value).overfull_ofDataset
    (List.mem_cons_of_mem _ List.mem_cons_self) List.mem_cons_self hname hlong

def wideValue : String := String.ofList (List.replicate 65536 '7')

theorem overfull_wideValue : (ofOneValue wideValue).Overfull .pretty "table" := by
  have hlength : wideValue.length = 65536 := String.length_ofList.trans List.length_replicate
  refine overfull_table ?_
  rw [hlength]
  decide

theorem numbersReadBack_table (value : String) :
    ∀ output ∈ ((ofOneValue value).submit "table").shown, output.NumbersReadBack := by
  rw [shown_table]
  exact List.forall_mem_cons.mpr ⟨trivial, List.forall_mem_singleton.mpr trivial⟩

/-! The history of a run -/

/-- A file that does not exist yet is loaded as an empty history. Whatever is done from there on,
the file can be loaded and holds the queries since the history was last cleared, each with all
that it showed, as far as the program survived them. It survives every line but a query whose
table is to be printed as text and has a header or a cell that is too long; then it crashes, and
the file is as it was before. A line that is no query changes nothing.

What a file gives back is what was written into it. Lines are no longer than a machine word can
say, and the texts of numbers stand for them. -/
theorem readHistory_of_acts (hhost : KeepsFile host path file) :
    (∀ s acts, file s = none → (∀ act ∈ acts, act.Storable) →
      ∃ s', Gives (readHistory host path >>= acts.foldlM (Act.perform host path)) s
          (keptBy acts) s' ∧
        ∃ s'', Gives (readHistory host path) s' (keptBy acts) s'') ∧
      ∀ env format history line s,
        (Query.isValid env.table env.dataset.length false line = false →
          ∃ s', Gives (submitInto host path format env history line) s
              (env.submit line, history) s' ∧
            file s' = file s) ∧
        (Query.isValid env.table env.dataset.length false line = true →
          ((∃ s', Crashes (submitInto host path format env history line) s
                Grid.tooWideMessage s' ∧
              file s' = file s) ↔
            env.Overfull format line)) := by
  refine ⟨fun s acts hmissing hacts => ?_, fun env format history line s =>
    ⟨fun hline => exists_submitInto_of_invalid hhost format hline history s, fun hline => ?_⟩⟩
  · have hempty : Holds file [] s := ⟨List.forall_mem_nil _, .inr ⟨hmissing, rfl⟩⟩
    obtain ⟨started, hload, hstarted⟩ := hempty.exists_readHistory hhost
    obtain ⟨s', hrun, hholds⟩ := exists_foldlM_perform hhost hstarted hacts
    obtain ⟨s'', hreload, -⟩ := hholds.exists_readHistory hhost
    exact ⟨s', hload.bind hrun, s'', hreload⟩
  · refine ⟨fun ⟨crashed, hcrash, _⟩ => ?_, fun hover =>
      exists_submitInto_of_overfull hhost hover history s⟩
    by_contra hfits
    obtain ⟨s', hgives, -⟩ := exists_submitInto_of_valid hhost hline hfits history s
    exact hgives.not_crashes hcrash

def clearedOnce : List Act := [
  .submit isolated .pretty "min `t`",
  .clear,
  .submit isolated .json "histogram `t`",
  .submit isolated .pretty "median `t`",
  .reload,
  .submit isolated .json "max `t` 0 2024-04-26"]

def crashedOnce : List Act :=
  clearedOnce ++ [.submit (ofOneValue wideValue) .pretty "table"] ++
    [.submit (ofOneValue wideValue) .json "table"]

theorem lines_keptBy_crashedOnce :
    (keptBy crashedOnce).map HistoryEntry.line =
      ["histogram `t`", "max `t` 0 2024-04-26", "table"] := by
  have hcleared : (keptBy clearedOnce).map HistoryEntry.line =
      ["histogram `t`", "max `t` 0 2024-04-26"] := by
    decide +kernel
  have hfits : ¬ (ofOneValue wideValue).Overfull .json "table" := by
    rintro ⟨⟨⟩, -⟩
  rw [crashedOnce, keptBy_concat, keptBy_concat, after_submit_of_overfull overfull_wideValue,
    after_submit_of_valid (isValid_table wideValue) hfits, shown_table]
  simp [History.record, hcleared]

theorem storable_crashedOnce : ∀ act ∈ crashedOnce, act.Storable := by
  have hseventy : Json.ReadsBack 70 := by
    have htext : Json.scalar (.real 70) = "70.0" := by decide +kernel
    exact Json.readsBack_of_numeral (n := ⟨false, ['7', '0'], ['0'], 0, false⟩)
      (by rw [htext]; rfl) rfl (by decide +kernel)
  have hseventyFive : Json.ReadsBack 75 := by
    have htext : Json.scalar (.real 75) = "75.0" := by decide +kernel
    exact Json.readsBack_of_numeral (n := ⟨false, ['7', '5'], ['0'], 0, false⟩)
      (by rw [htext]; rfl) rfl (by decide +kernel)
  have hmin : (isolated.submit "min `t`").shown = [.echo "min `t`", .text "70"] := by
    decide +kernel
  have hhistogram : (isolated.submit "histogram `t`").shown = [.echo "histogram `t`",
      .histogram "Histogram of `t`" "t" [⟨"2024-04-24", 70⟩, ⟨"2024-04-25", 75⟩]] := by
    decide +kernel
  have htable : Text.byteLength "table" < Json.wordLimit := by decide +kernel
  simp only [crashedOnce, clearedOnce, List.forall_mem_append, List.forall_mem_cons]
  refine ⟨⟨⟨⟨by decide +kernel, ?_⟩, trivial, ⟨by decide +kernel, ?_⟩, ⟨by decide +kernel, ?_⟩,
    trivial, ⟨by decide +kernel, ?_⟩, List.forall_mem_nil _⟩,
    ⟨htable, numbersReadBack_table _⟩, List.forall_mem_nil _⟩,
    ⟨htable, numbersReadBack_table _⟩, List.forall_mem_nil _⟩
  · simp [hmin, Output.NumbersReadBack]
  · simp [hhistogram, Output.NumbersReadBack, hseventy, hseventyFive]
  · exact Environment.numbersReadBack_of_answer (by decide +kernel)
  · exact Environment.numbersReadBack_of_answer (by decide +kernel)

theorem readHistory_of_crashedOnce :
    (∃ s', Gives (readHistory Memory.host "history.json" >>=
          crashedOnce.foldlM (Act.perform Memory.host "history.json")) ⟨[], ""⟩
          (keptBy crashedOnce) s' ∧
        ∃ s'', Gives (readHistory Memory.host "history.json") s' (keptBy crashedOnce) s'') ∧
      (keptBy crashedOnce).map HistoryEntry.line =
        ["histogram `t`", "max `t` 0 2024-04-26", "table"] ∧
      (∃ s', Gives (submitInto Memory.host "history.json" .pretty isolated [] "median `t`")
          ⟨[], ""⟩ (isolated.submit "median `t`", []) s' ∧
        s'.file? "history.json" = none) ∧
      ∃ s', Crashes (submitInto Memory.host "history.json" .pretty (ofOneValue wideValue) []
          "table") ⟨[], ""⟩ Grid.tooWideMessage s' ∧
        s'.file? "history.json" = none := by
  obtain ⟨hrun, hlines⟩ := readHistory_of_acts (Memory.keepsFile_host "history.json")
  exact ⟨hrun ⟨[], ""⟩ crashedOnce rfl storable_crashedOnce, lines_keptBy_crashedOnce,
    (hlines isolated .pretty [] "median `t`" ⟨[], ""⟩).1 (by decide +kernel),
    ((hlines (ofOneValue wideValue) .pretty [] "table" ⟨[], ""⟩).2 (isValid_table _)).mpr
      overfull_wideValue⟩

/-- A query that is accepted and is not kept. -/
theorem not_kept_of_overfull_table :
    Query.isValid (ofOneValue wideValue).table (ofOneValue wideValue).dataset.length false
        "table" = true ∧
      ∃ s', Gives (readHistory Memory.host "history.json" >>=
          [Act.submit (ofOneValue wideValue) .pretty "table"].foldlM
            (Act.perform Memory.host "history.json")) ⟨[], ""⟩ [] s' ∧
        ∃ s'', Gives (readHistory Memory.host "history.json") s' [] s'' := by
  have hhost := Memory.keepsFile_host "history.json"
  have hempty : Holds (fun memory : Memory => memory.file? "history.json") [] ⟨[], ""⟩ :=
    ⟨List.forall_mem_nil _, .inr ⟨rfl, rfl⟩⟩
  have hstorable : (Act.submit (ofOneValue wideValue) .pretty "table").Storable :=
    ⟨by decide +kernel, numbersReadBack_table wideValue⟩
  have hkept : keptBy [.submit (ofOneValue wideValue) .pretty "table"] = [] :=
    (keptBy_concat [] _).trans (after_submit_of_overfull overfull_wideValue _)
  obtain ⟨started, hload, hstarted⟩ := hempty.exists_readHistory hhost
  obtain ⟨s', hrun, hholds⟩ := exists_foldlM_perform hhost hstarted
    (List.forall_mem_singleton.mpr hstorable)
  rw [hkept] at hrun hholds
  obtain ⟨s'', hreload, -⟩ := hholds.exists_readHistory hhost
  exact ⟨isValid_table wideValue, s', hload.bind hrun, s'', hreload⟩

end Almanac.CommandLine
