import Mathlib.Data.Finset.Card
import DefUse.Registers

namespace DefUse.Registers

/-- The map once entries are inserted, in order. -/
def insertAll (m : Registers) (entries : List (String × Location)) : Registers :=
  entries.foldl (fun m e => m.insert e.1 e.2) m

/-- What `x8664` is built from. -/
def x8664Entries : List (String × Location) :=
  x8664Table.map fun (name, offset, size) => (name, ⟨.register, offset, size⟩)

theorem insertAll_x8664Entries : ({} : Registers).insertAll x8664Entries = x8664 := by
  unfold insertAll x8664Entries x8664
  rw [List.foldl_map]

/-- A map that was built from the entries. -/
structure Collects (m : Registers) (entries : List (String × Location)) : Prop where
  /-- The last entry of a name counts. -/
  location : ∀ name, m.location? name = (entries.reverse.find? (·.1 = name)).map Prod.snd
  /-- The first entry of a location counts. -/
  name : ∀ l, m.name? l = (entries.find? (·.2 = l)).map Prod.fst
  nodup : m.byName.keys.Nodup
  names : ∀ name, name ∈ m.byName.keys ↔ name ∈ entries.map Prod.fst

theorem collects_empty : Collects {} [] where
  location _ := rfl
  name _ := rfl
  nodup := List.nodup_nil
  names _ := Iff.rfl

section Collects
variable {m : Registers} {entries : List (String × Location)}

/-- One entry more. -/
theorem Collects.insert (h : m.Collects entries) (name : String) (l : Location) :
    (m.insert name l).Collects (entries ++ [(name, l)]) where
  location other := by
    have hold := h.location other
    unfold location? at hold
    unfold location? Registers.insert
    rw [Assoc.get?_put, List.reverse_append, List.reverse_singleton, List.singleton_append,
      List.find?_cons, hold]
    by_cases he : name = other <;> simp [he]
  name k := by
    have hold := h.name k
    unfold name? at hold
    unfold name? Registers.insert
    rw [Assoc.get?_putNew, List.find?_append, hold]
    -- a location that has a name already keeps it
    cases entries.find? (·.2 = k) with
    | some e => by_cases he : l = k <;> simp [he]
    | none => by_cases he : l = k <;> simp [he]
  nodup := Assoc.nodup_keys_put h.nodup name l
  names other := by
    unfold Registers.insert
    rw [Assoc.mem_keys_put, h.names, List.map_append, List.mem_append, or_comm]
    simp

/-- Any number of entries more. -/
theorem Collects.insertAll (h : m.Collects entries) (more : List (String × Location)) :
    (m.insertAll more).Collects (entries ++ more) := by
  induction more generalizing m entries with
  | nil => simpa [Registers.insertAll] using h
  | cons e rest ih =>
    have hrest := ih (h.insert e.1 e.2)
    rwa [List.append_assoc, List.singleton_append] at hrest

/-- A location's name has been given to it. -/
theorem Collects.find?_of_name? (h : m.Collects entries) {l : Location} {name : String}
    (hname : m.name? l = some name) : entries.find? (·.2 = l) = some (name, l) := by
  rw [h.name] at hname
  obtain ⟨⟨name', l'⟩, hfind, rfl⟩ := Option.map_eq_some_iff.mp hname
  have hl : l' = l := by simpa using List.find?_some hfind
  rw [hfind, hl]

/-- It leads back to the location, or to one that the name was given later. -/
theorem Collects.back_or_moved (h : m.Collects entries) {l : Location} {name : String}
    (hname : m.name? l = some name) :
    m.location? name = some l ∨
      ∃ k, k ≠ l ∧ m.location? name = some k ∧ [(name, l), (name, k)].Sublist entries := by
  have hfind := h.find?_of_name? hname
  obtain ⟨_, before, after, hentries, _⟩ := List.find?_eq_some_iff_append.mp hfind
  have hlast := h.location name
  rw [hentries, List.reverse_append, List.reverse_cons, List.append_assoc,
    List.find?_append] at hlast
  cases hafter : after.reverse.find? (·.1 = name) with
  | none =>
    rw [hafter] at hlast
    left
    simpa using hlast
  | some e =>
    obtain ⟨name', k⟩ := e
    have hsame : name' = name := by simpa using List.find?_some hafter
    subst hsame
    rw [hafter] at hlast
    have hk : m.location? name' = some k := hlast
    by_cases he : k = l
    · left
      rw [hk, he]
    · right
      have hin : (name', k) ∈ after := List.mem_reverse.mp (List.mem_of_find?_eq_some hafter)
      have hsub : [(name', l), (name', k)].Sublist ((name', l) :: after) :=
        (List.singleton_sublist.mpr hin).cons_cons _
      refine ⟨k, he, hk, ?_⟩
      rw [hentries]
      exact hsub.trans (List.sublist_append_right before _)

/-- A location that a name stands for has a name. -/
theorem Collects.exists_name? (h : m.Collects entries) {l : Location} {name : String}
    (hlocation : m.location? name = some l) : ∃ other, m.name? l = some other := by
  rw [h.location] at hlocation
  obtain ⟨e, hfind, rfl⟩ := Option.map_eq_some_iff.mp hlocation
  have hin : e ∈ entries := List.mem_reverse.mp (List.mem_of_find?_eq_some hfind)
  have hsome : (entries.find? (·.2 = e.2)).isSome = true := by
    rw [List.find?_isSome]
    exact ⟨e, hin, by simp⟩
  obtain ⟨first, hfirst⟩ := Option.isSome_iff_exists.mp hsome
  exact ⟨first.1, by rw [h.name, hfirst]; rfl⟩

theorem Collects.size_eq (h : m.Collects entries) :
    m.size = (entries.map Prod.fst).toFinset.card := by
  have hnames : m.byName.keys.toFinset = (entries.map Prod.fst).toFinset := by
    ext name
    rw [List.mem_toFinset, List.mem_toFinset]
    exact h.names name
  rw [← hnames, List.toFinset_card_of_nodup h.nodup]
  exact (List.length_map ..).symm

end Collects

/-- Whatever is inserted into an empty map or that of the built-in registers: the name of a location
leads back to it, unless the name was given another location later; a location that some name stands
for has a name; and the names are counted, each once. -/
theorem directions_agree {base : Registers} {given : List (String × Location)}
    (hbase : base = {} ∧ given = [] ∨ base = x8664 ∧ given = x8664Entries)
    (entries : List (String × Location)) :
    (∀ l name, (base.insertAll entries).name? l = some name →
      (base.insertAll entries).location? name = some l ∨
        ∃ k, k ≠ l ∧ (base.insertAll entries).location? name = some k ∧
          [(name, l), (name, k)].Sublist (given ++ entries)) ∧
    (∀ name l, (base.insertAll entries).location? name = some l →
      ∃ other, (base.insertAll entries).name? l = some other) ∧
    (base.insertAll entries).size = ((given ++ entries).map Prod.fst).toFinset.card := by
  have hgiven : base.Collects given := by
    rcases hbase with ⟨rfl, rfl⟩ | ⟨rfl, rfl⟩
    · exact collects_empty
    · rw [← insertAll_x8664Entries]
      exact collects_empty.insertAll x8664Entries
  have hall := hgiven.insertAll entries
  exact ⟨fun _ _ h => hall.back_or_moved h, fun _ _ h => hall.exists_name? h, hall.size_eq⟩

/-- A second name for a register, and a register that moves. -/
def aliases : List (String × Location) :=
  [("ACC", ⟨.register, 0, 8⟩), ("EAX", ⟨.register, 0x400, 4⟩), ("ACC", ⟨.register, 0, 8⟩)]

theorem aliases_agree :
    (x8664.insertAll aliases).size = 42 ∧
      (∃ other, (x8664.insertAll aliases).name? ⟨.register, 0x400, 4⟩ = some other) ∧
      (x8664.insertAll aliases).location? "RAX" = some ⟨.register, 0, 8⟩ := by
  obtain ⟨hback, hnamed, hsize⟩ := directions_agree (Or.inr ⟨rfl, rfl⟩) aliases
  refine ⟨hsize.trans (by decide +kernel), hnamed "EAX" _ (by decide +kernel), ?_⟩
  have hrax : (x8664.insertAll aliases).name? ⟨.register, 0, 8⟩ = some "RAX" := by decide +kernel
  rcases hback _ _ hrax with h | ⟨k, _, _, hmoved⟩
  · exact h
  · -- it was given one location only
    have honce : (x8664Entries ++ aliases).countP (·.1 = "RAX") = 1 := by decide +kernel
    have htwice := hmoved.countP_le (p := fun e => decide (e.1 = "RAX"))
    rw [honce] at htwice
    simp at htwice

/-- A name that was given a second location is still that of the first. -/
theorem moved_name_remains :
    ∃ (entries : List (String × Location)) (l : Location) (name : String),
      (({} : Registers).insertAll entries).name? l = some name ∧
        (({} : Registers).insertAll entries).location? name ≠ some l :=
  ⟨[("A", ⟨.register, 0, 8⟩), ("A", ⟨.register, 8, 8⟩)], ⟨.register, 0, 8⟩, "A",
    by decide, by decide⟩

end DefUse.Registers
