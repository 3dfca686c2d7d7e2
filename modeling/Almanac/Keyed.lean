/-!
Entries kept in the order of their keys, each key once. Keys are ordered by their code points,
character by character, which is also the order of their UTF-8 bytes. Adding an entry under a key
that is already there replaces its value.
-/

namespace Almanac.Keyed

variable {α : Type}

def precedes : List Char → List Char → Bool
  | _, [] => false
  | [], _ :: _ => true
  | a :: as, b :: bs =>
    if a.toNat < b.toNat then true
    else if b.toNat < a.toNat then false
    else precedes as bs

def insert (key : String) (value : α) : List (String × α) → List (String × α)
  | [] => [(key, value)]
  | (k, v) :: rest =>
    if key = k then (key, value) :: rest
    else if precedes key.toList k.toList then (key, value) :: (k, v) :: rest
    else (k, v) :: insert key value rest

def ofList (entries : List (String × α)) : List (String × α) :=
  entries.foldl (fun kept entry => insert entry.1 entry.2 kept) []

def find? (key : String) : List (String × α) → Option α
  | [] => none
  | (k, v) :: rest => if k = key then some v else find? key rest

theorem find?_insert (key other : String) (value : α) (entries : List (String × α)) :
    find? other (insert key value entries) =
      if key = other then some value else find? other entries := by
  induction entries with
  | nil => simp [insert, find?]
  | cons entry rest ih =>
    obtain ⟨k, v⟩ := entry
    by_cases hk : key = k
    · subst hk
      by_cases ho : key = other <;> simp [insert, find?, ho]
    · by_cases hp : precedes key.toList k.toList
      · simp [insert, find?, hk, hp]
      · by_cases ho : k = other
        · subst ho
          simp [insert, find?, hk, hp]
        · simp [insert, find?, hk, hp, ho, ih]

end Almanac.Keyed
