import Almanac.Proofs.Table.Resolution
import Mathlib.Data.List.ReduceOption

/-!
Commands found through hash tables. One table has the first position for each name and
discriminant, another the positions for each name, and both are filled in one pass over the
commands. A look-up tries the positions with and without the word that follows the name, drops
those that may not be used in the nesting, and takes the smallest. That is the command that is
selected, and the commands of a name come in the order of the table. If no two commands have the
same name and discriminant, nothing is hidden behind a first position, and the look-up finds what
a scan over all commands would find.
-/

namespace Almanac.CommandTable

variable {t : CommandTable} {name : String} {next : Option String} {nested : Bool}

def indexFrom (index : Std.HashMap (String × Option String) Nat) (position : Nat) :
    List Command → Std.HashMap (String × Option String) Nat
  | [] => index
  | c :: rest => indexFrom (index.insertIfNew c.key position) (position + 1) rest

def index (t : CommandTable) : Std.HashMap (String × Option String) Nat :=
  indexFrom ∅ 0 t.commands

/-- The smallest of the positions for the key with the next token and the key without, among
those that may be used in the nesting. -/
def lookUp (t : CommandTable) (name : String) (next : Option String) (nested : Bool) :
    Option Command :=
  let keyed := next.bind fun word => t.index[(name, some word)]?
  let bare := t.index[(name, (none : Option String))]?
  let positions := [keyed, bare].reduceOption.filter fun i => (t.visibleAt? nested i).isSome
  positions.min?.bind fun i => t.commands[i]?

def namesFrom (names : Std.HashMap String (List Nat)) (position : Nat) :
    List Command → Std.HashMap String (List Nat)
  | [] => names
  | c :: rest =>
    namesFrom (names.insert c.name (names.getD c.name [] ++ [position])) (position + 1) rest

def names (t : CommandTable) : Std.HashMap String (List Nat) :=
  namesFrom ∅ 0 t.commands

/-- The commands of a name, each of which has to be at its position. -/
def lookUpAll? (t : CommandTable) (name : String) : Option (List Command) :=
  (t.names.getD name []).mapM fun i => t.commands[i]?

/-- A key has the position it had before, or else that of the first command with it. -/
theorem getElem?_indexFrom (index : Std.HashMap (String × Option String) Nat) (position : Nat)
    (commands : List Command) (key : String × Option String) :
    (indexFrom index position commands)[key]? =
      index[key]?.or ((commands.findIdx? fun c => c.key = key).map (· + position)) := by
  induction commands generalizing index position with
  | nil => simp [indexFrom]
  | cons c rest ih =>
    rw [indexFrom, ih, List.findIdx?_cons, Std.HashMap.getElem?_insertIfNew]
    by_cases hkey : c.key = key
    · subst hkey
      by_cases hmem : c.key ∈ index <;> simp [hmem]
    · cases hi : index[key]? with
      | some i => simp [hkey]
      | none =>
        simp only [beq_iff_eq, hkey, false_and, if_false, Option.none_or, decide_false,
          Bool.false_eq_true, Option.map_map]
        congr 1
        funext i
        simp only [Function.comp_apply]
        omega

theorem getElem?_index (discriminant : Option String) :
    t.index[(name, discriminant)]? = t.position? name discriminant := by
  rw [index, getElem?_indexFrom, position?]
  simp

theorem visibleAt?_eq_some_iff {i : Nat} {c : Command} :
    t.visibleAt? nested i = some c ↔ t.commands[i]? = some c ∧ c.visibleIn nested = true := by
  rw [visibleAt?, Option.filter_eq_some_iff]

/-- The smaller of two positions that may be used. -/
theorem min?_visible (i j : Nat) :
    (([i, j].filter fun i => (t.visibleAt? nested i).isSome).min?.bind fun i => t.commands[i]?) =
      if i < j then (t.visibleAt? nested i).or (t.visibleAt? nested j)
      else (t.visibleAt? nested j).or (t.visibleAt? nested i) := by
  cases hi : t.visibleAt? nested i with
  | none =>
    cases hj : t.visibleAt? nested j with
    | none => simp [hi, hj]
    | some d => simp [hi, hj, (visibleAt?_eq_some_iff.mp hj).1]
  | some c =>
    have hc := (visibleAt?_eq_some_iff.mp hi).1
    cases hj : t.visibleAt? nested j with
    | none => simp [hi, hj, hc]
    | some d =>
      have hd := (visibleAt?_eq_some_iff.mp hj).1
      by_cases hlt : i < j
      · simp [hi, hj, hlt, hc, Nat.min_eq_left (Nat.le_of_lt hlt)]
      · simp [hi, hj, hlt, hd, Nat.min_eq_right (Nat.le_of_not_lt hlt)]

theorem min?_visible_singleton (i : Nat) :
    (([i].filter fun i => (t.visibleAt? nested i).isSome).min?.bind fun i => t.commands[i]?) =
      t.visibleAt? nested i := by
  cases hi : t.visibleAt? nested i with
  | none => simp [hi]
  | some c => simp [hi, (visibleAt?_eq_some_iff.mp hi).1]

/-- The look-up finds the command that is selected, in every table. -/
theorem lookUp_eq_resolve (t : CommandTable) (name : String) (next : Option String)
    (nested : Bool) : t.lookUp name next nested = t.resolve name next nested := by
  simp only [lookUp, resolve, getElem?_index]
  cases next.bind fun word => t.position? name (some word) with
  | none =>
    cases t.position? name none with
    | none => rfl
    | some j => exact min?_visible_singleton j
  | some i =>
    cases t.position? name none with
    | none => exact min?_visible_singleton i
    | some j => exact min?_visible i j

/-- A name has the positions it had before and those of the commands with it, in order. -/
theorem getD_namesFrom (names : Std.HashMap String (List Nat)) (position : Nat)
    (commands : List Command) (name : String) :
    (namesFrom names position commands).getD name [] =
      names.getD name [] ++ ((commands.zipIdx position).filter fun p => p.1.name = name).map
        Prod.snd := by
  induction commands generalizing names position with
  | nil => simp [namesFrom]
  | cons c rest ih =>
    rw [namesFrom, ih, Std.HashMap.getD_insert, List.zipIdx_cons]
    by_cases hname : c.name = name <;> simp [hname]

theorem mapM_eq_some_map {α β : Type} {f : α → Option β} {g : α → β} {items : List α}
    (h : ∀ x ∈ items, f x = some (g x)) : items.mapM f = some (items.map g) := by
  induction items with
  | nil => rfl
  | cons x rest ih =>
    obtain ⟨hx, hrest⟩ := List.forall_mem_cons.mp h
    rw [List.mapM_cons, hx, ih hrest]
    rfl

/-- The look-up of a name finds its commands, in the order of the table. -/
theorem lookUpAll?_eq_overloads (t : CommandTable) (name : String) :
    t.lookUpAll? name = some (t.overloads name) := by
  have hpositions : t.names.getD name [] =
      ((t.commands.zipIdx).filter fun p => p.1.name = name).map Prod.snd := by
    rw [names, getD_namesFrom]
    simp
  have hread : ∀ p ∈ (t.commands.zipIdx).filter fun p => p.1.name = name,
      t.commands[p.2]? = some p.1 := by
    intro p hp
    exact (List.mem_zipIdx_iff_getElem?).mp (List.mem_of_mem_filter hp)
  have hcommands : ((t.commands.zipIdx).filter fun p => p.1.name = name).map Prod.fst =
      t.overloads name := by
    calc
      _ = ((t.commands.zipIdx).map Prod.fst).filter fun c => c.name = name := by
          rw [List.filter_map]
          rfl
      _ = t.commands.filter fun c => c.name = name := by rw [List.zipIdx_map_fst]
  rw [lookUpAll?, hpositions, List.mapM_map, ← hcommands]
  exact mapM_eq_some_map hread

/-- In a sound table the look-up is a scan: it takes the first command with the name that may be
used in the nesting and has no discriminant or the one that follows, and finds none only if there
is no such command. -/
theorem lookUp_takes_first {t : CommandTable} (hsound : t.check = .ok ()) (name : String)
    (next : Option String) (nested : Bool) :
    t.lookUp name next nested = t.resolve name next nested ∧
      t.resolve name next nested = t.commands.find? (fun c => c.answers name next nested) ∧
      (∀ c, t.resolve name next nested = some c ↔
        ∃ front back, t.commands = front ++ c :: back ∧
          (c.name = name ∧ c.visibleIn nested = true ∧
            (c.discriminant = none ∨ c.discriminant = next)) ∧
          ∀ d ∈ front, ¬(d.name = name ∧ d.visibleIn nested = true ∧
            (d.discriminant = none ∨ d.discriminant = next))) ∧
      (t.resolve name next nested = none ↔
        ∀ d ∈ t.commands, ¬(d.name = name ∧ d.visibleIn nested = true ∧
          (d.discriminant = none ∨ d.discriminant = next))) := by
  have hscan := @resolve_eq_find? name next nested t ((check_eq_ok_iff t).mp hsound).2
  refine ⟨lookUp_eq_resolve t name next nested, hscan, fun c => ?_, ?_⟩
  · simp only [hscan, List.find?_eq_some_iff_append, ← Command.answers_iff, Bool.not_eq_true',
      Bool.not_eq_true]
    tauto
  · simp only [hscan, List.find?_eq_none, Command.answers_iff]

def nestedTotal : CommandTable := .ofCommands
  [⟨"total", "", false, [.leading "span" "all"]⟩, ⟨"total", "", true, [.required "row" .row]⟩]

theorem lookUp_takes_first_nested :
    nestedTotal.check = .ok () ∧
      nestedTotal.lookUp "total" (some "all") false = nestedTotal.commands[0]? ∧
      nestedTotal.lookUp "total" (some "all") true = nestedTotal.commands[1]? ∧
      nestedTotal.lookUp "count" (some "all") true = none := by
  have hsound : nestedTotal.check = .ok () := by decide
  have hfirst := lookUp_takes_first hsound
  refine ⟨hsound, ?_, ?_, ?_⟩
  · exact (hfirst "total" (some "all") false).1.trans (by decide)
  · exact (hfirst "total" (some "all") true).1.trans (by decide)
  · exact (hfirst "count" (some "all") true).1.trans
      ((hfirst "count" (some "all") true).2.2.2.mpr (by decide))

/-- Behind another command of its key a command is never found. -/
example : (ofCommands [⟨"total", "", false, []⟩, ⟨"total", "", true, []⟩]).lookUp "total" none
    true = none := by
  rw [lookUp_eq_resolve]
  decide

end Almanac.CommandTable
