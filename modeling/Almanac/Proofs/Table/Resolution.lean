import Almanac.Table.Basic
import Mathlib.Data.List.Nodup

/-!
What a name, the token after it and the nesting select. In a sound table no two commands share a
name and a discriminant, and then the selected command is the first one that answers: it has the
name, it may be used in the nesting, and its discriminant, if it has one, is the token that
follows.
-/

namespace Almanac

@[simp] theorem Command.visibleIn_false (c : Command) : c.visibleIn false = true := by
  simp [visibleIn]

@[simp] theorem Command.visibleIn_true (c : Command) : c.visibleIn true = c.canSubQuery := by
  simp [visibleIn]

/-- The command may be selected by a name and the token after it. -/
def Command.answers (c : Command) (name : String) (next : Option String) (nested : Bool) : Bool :=
  c.name = name && c.visibleIn nested && (c.discriminant = none || c.discriminant = next)

theorem Command.answers_iff {c : Command} {name : String} {next : Option String} {nested : Bool} :
    c.answers name next nested = true ↔
      c.name = name ∧ c.visibleIn nested = true ∧
        (c.discriminant = none ∨ c.discriminant = next) := by
  simp only [answers, Bool.and_eq_true, decide_eq_true_eq, Bool.or_eq_true, and_assoc]

namespace CommandTable

theorem checkAfter_eq_ok_iff (seen : List (String × Option String)) (commands : List Command) :
    checkAfter seen commands = .ok () ↔
      (∀ c ∈ commands, c.check = .ok ()) ∧ (∀ c ∈ commands, c.key ∉ seen) ∧
        (commands.map Command.key).Nodup := by
  induction commands generalizing seen with
  | nil => simp [checkAfter]
  | cons c rest ih =>
    rw [checkAfter]
    cases hc : c.check with
    | error e => simp [hc]
    | ok u =>
      by_cases hseen : c.key ∈ seen
      · simp [hseen]
      · simp only [List.contains_eq_mem, hseen, decide_false, Bool.false_eq_true, if_false, ih,
          List.forall_mem_cons, List.map_cons, List.nodup_cons, List.mem_map, hc]
        grind

theorem check_eq_ok_iff (t : CommandTable) :
    t.check = .ok () ↔
      (∀ c ∈ t.commands, c.check = .ok ()) ∧ (t.commands.map Command.key).Nodup := by
  rw [check, checkAfter_eq_ok_iff]
  simp

variable {name : String} {next : Option String} {nested : Bool}

theorem position?_cons (version : String) (c : Command) (rest : List Command)
    (discriminant : Option String) :
    (⟨version, c :: rest⟩ : CommandTable).position? name discriminant =
      if c.key = (name, discriminant) then some 0
      else ((⟨version, rest⟩ : CommandTable).position? name discriminant).map (· + 1) := by
  simp only [position?, List.findIdx?_cons, decide_eq_true_eq]

theorem visibleAt?_zero (version : String) (c : Command) (rest : List Command) :
    (⟨version, c :: rest⟩ : CommandTable).visibleAt? nested 0 =
      if c.visibleIn nested then some c else none := by
  rw [visibleAt?, List.getElem?_cons_zero, Option.filter_some]

theorem visibleAt?_succ (version : String) (c : Command) (rest : List Command) (i : Nat) :
    (⟨version, c :: rest⟩ : CommandTable).visibleAt? nested (i + 1) =
      (⟨version, rest⟩ : CommandTable).visibleAt? nested i := by
  rw [visibleAt?, visibleAt?, List.getElem?_cons_succ]

theorem position?_eq_none {t : CommandTable} {discriminant : Option String}
    (h : (name, discriminant) ∉ t.commands.map Command.key) :
    t.position? name discriminant = none := by
  simp only [position?, List.findIdx?_eq_none_iff, decide_eq_false_iff_not]
  intro c hc hkey
  exact h (List.mem_map.mpr ⟨c, hc, hkey⟩)

/-- A command with neither key does not matter. -/
theorem resolve_cons_of_ne (version : String) (c : Command) (rest : List Command)
    (hbare : c.key ≠ (name, none)) (hkeyed : c.key ≠ (name, next)) :
    (⟨version, c :: rest⟩ : CommandTable).resolve name next nested =
      (⟨version, rest⟩ : CommandTable).resolve name next nested := by
  cases next with
  | none =>
    simp only [resolve, Option.bind_none, position?_cons, if_neg hbare]
    cases (⟨version, rest⟩ : CommandTable).position? name none <;> rfl
  | some word =>
    simp only [resolve, Option.bind_some, position?_cons, if_neg hbare, if_neg hkeyed]
    cases (⟨version, rest⟩ : CommandTable).position? name none <;>
      cases (⟨version, rest⟩ : CommandTable).position? name (some word) <;>
        simp [visibleAt?_succ]

/-- A first command without discriminant is taken if it may be used. -/
theorem resolve_cons_bare (version : String) (c : Command) (rest : List Command)
    (hkey : c.key = (name, none)) (hfresh : c.key ∉ rest.map Command.key) :
    (⟨version, c :: rest⟩ : CommandTable).resolve name next nested =
      if c.visibleIn nested then some c
      else (⟨version, rest⟩ : CommandTable).resolve name next nested := by
  have hnone : (⟨version, rest⟩ : CommandTable).position? name none = none :=
    position?_eq_none (hkey ▸ hfresh)
  cases next with
  | none =>
    simp [resolve, position?_cons, hkey, hnone, visibleAt?_zero]
  | some word =>
    have hne : c.key ≠ (name, some word) := by simp [hkey]
    simp only [resolve, Option.bind_some, position?_cons, if_pos hkey, if_neg hne, hnone]
    cases (⟨version, rest⟩ : CommandTable).position? name (some word) <;>
      by_cases hv : c.visibleIn nested <;> simp [visibleAt?_zero, visibleAt?_succ, hv]

/-- A first command whose discriminant follows the name is taken if it may be used. -/
theorem resolve_cons_keyed (version : String) (c : Command) (rest : List Command) {word : String}
    (hkey : c.key = (name, some word)) (hfresh : c.key ∉ rest.map Command.key) :
    (⟨version, c :: rest⟩ : CommandTable).resolve name (some word) nested =
      if c.visibleIn nested then some c
      else (⟨version, rest⟩ : CommandTable).resolve name (some word) nested := by
  have hnone : (⟨version, rest⟩ : CommandTable).position? name (some word) = none :=
    position?_eq_none (hkey ▸ hfresh)
  have hne : c.key ≠ (name, none) := by simp [hkey]
  simp only [resolve, Option.bind_some, position?_cons, if_pos hkey, if_neg hne, hnone]
  cases (⟨version, rest⟩ : CommandTable).position? name none <;>
    by_cases hv : c.visibleIn nested <;> simp [visibleAt?_zero, visibleAt?_succ, hv]

theorem resolve_mk (version : String) (commands : List Command)
    (hkeys : (commands.map Command.key).Nodup) :
    (⟨version, commands⟩ : CommandTable).resolve name next nested =
      commands.find? fun c => c.answers name next nested := by
  induction commands with
  | nil => cases next <;> rfl
  | cons c rest ih =>
    rw [List.map_cons, List.nodup_cons] at hkeys
    specialize ih hkeys.2
    rw [List.find?_cons]
    by_cases hbare : c.key = (name, none)
    · rw [resolve_cons_bare version c rest hbare hkeys.1, ih]
      obtain ⟨hname, hdiscriminant⟩ := Prod.mk.inj hbare
      simp only [Command.answers, hname, hdiscriminant]
      cases c.visibleIn nested <;> simp
    · by_cases hkeyed : c.key = (name, next)
      · obtain ⟨word, rfl⟩ : ∃ word, next = some word :=
          Option.ne_none_iff_exists'.mp fun h => hbare (h ▸ hkeyed)
        rw [resolve_cons_keyed version c rest hkeyed hkeys.1, ih]
        obtain ⟨hname, hdiscriminant⟩ := Prod.mk.inj hkeyed
        simp only [Command.answers, hname, hdiscriminant]
        cases c.visibleIn nested <;> simp
      · have hanswers : c.answers name next nested = false := by
          simp only [Command.key, Prod.mk.injEq] at hbare hkeyed
          simp only [Command.answers, Bool.and_eq_false_iff, decide_eq_false_iff_not,
            Bool.or_eq_false_iff]
          tauto
        rw [resolve_cons_of_ne version c rest hbare hkeyed, ih, hanswers]

/-- With distinct keys the selected command is the first one that answers. -/
theorem resolve_eq_find? {t : CommandTable} (hkeys : (t.commands.map Command.key).Nodup) :
    t.resolve name next nested = t.commands.find? fun c => c.answers name next nested :=
  resolve_mk t.version t.commands hkeys

theorem visibleOverloads_eq_filter (t : CommandTable) (name : String) (nested : Bool) :
    t.visibleOverloads name nested =
      t.commands.filter fun c => c.name = name ∧ c.visibleIn nested = true := by
  rw [visibleOverloads, overloads, List.filter_filter]
  congr 1
  funext c
  rw [Bool.decide_and, Bool.decide_eq_true, Bool.and_comm]

theorem mem_visibleOverloads_iff {t : CommandTable} {c : Command} :
    c ∈ t.visibleOverloads name nested ↔
      c ∈ t.commands ∧ c.name = name ∧ c.visibleIn nested = true := by
  rw [visibleOverloads_eq_filter, List.mem_filter, decide_eq_true_iff]

/-- The selected command is the first of the visible overloads that answers. -/
theorem resolve_eq_find?_visible {t : CommandTable} (hsound : t.check = .ok ())
    (next : Option String) :
    t.resolve name next nested =
      (t.visibleOverloads name nested).find? fun c =>
        c.discriminant = none || c.discriminant = next := by
  rw [resolve_eq_find? ((check_eq_ok_iff t).mp hsound).2, visibleOverloads_eq_filter,
    List.find?_filter]
  congr 1
  funext c
  simp only [Command.answers, Bool.decide_and, Bool.decide_eq_true]

theorem visibleAt?_position? {t : CommandTable} {c : Command} {discriminant : Option String}
    {i : Nat} (hi : t.position? name discriminant = some i)
    (hc : t.visibleAt? nested i = some c) :
    c ∈ t.commands ∧ c.visibleIn nested = true ∧ c.key = (name, discriminant) := by
  rw [visibleAt?, Option.filter_eq_some_iff] at hc
  rw [position?, List.findIdx?_eq_some_iff_getElem] at hi
  obtain ⟨hlt, hkey, _⟩ := hi
  rw [List.getElem?_eq_getElem hlt, Option.some.injEq] at hc
  obtain ⟨rfl, hvisible⟩ := hc
  exact ⟨List.getElem_mem hlt, hvisible, of_decide_eq_true hkey⟩

/-- What is selected has the name, may be used in the nesting, and has no discriminant or the
one that follows the name. -/
theorem of_resolve_eq_some {t : CommandTable} {c : Command}
    (h : t.resolve name next nested = some c) :
    c ∈ t.commands ∧ c.visibleIn nested = true ∧ c.name = name ∧
      (c.discriminant = none ∨ c.discriminant.isSome ∧ c.discriminant = next) := by
  have bare {j : Nat} (hj : t.position? name none = some j)
      (hc : t.visibleAt? nested j = some c) : c ∈ t.commands ∧ c.visibleIn nested = true ∧
      c.name = name ∧ (c.discriminant = none ∨ c.discriminant.isSome ∧ c.discriminant = next) := by
    obtain ⟨hmem, hvisible, hkey⟩ := visibleAt?_position? hj hc
    rw [Command.key, Prod.mk.injEq] at hkey
    exact ⟨hmem, hvisible, hkey.1, .inl hkey.2⟩
  have keyed {i : Nat} (hi : (next.bind fun word => t.position? name (some word)) = some i)
      (hc : t.visibleAt? nested i = some c) : c ∈ t.commands ∧ c.visibleIn nested = true ∧
      c.name = name ∧ (c.discriminant = none ∨ c.discriminant.isSome ∧ c.discriminant = next) := by
    obtain ⟨word, rfl, hi⟩ := Option.bind_eq_some_iff.mp hi
    obtain ⟨hmem, hvisible, hkey⟩ := visibleAt?_position? hi hc
    rw [Command.key, Prod.mk.injEq] at hkey
    exact ⟨hmem, hvisible, hkey.1, .inr ⟨by rw [hkey.2]; rfl, hkey.2⟩⟩
  rw [resolve] at h
  simp only at h
  split at h
  · simp at h
  · exact keyed ‹_› h
  · exact bare ‹_› h
  · split at h
    · rcases Option.or_eq_some_iff.mp h with h | ⟨_, h⟩
      · exact keyed ‹_› h
      · exact bare ‹_› h
    · rcases Option.or_eq_some_iff.mp h with h | ⟨_, h⟩
      · exact bare ‹_› h
      · exact keyed ‹_› h

end CommandTable

end Almanac
