/-
Named values, at most one per name.

The entries are kept in the order of their names, so that a listing needs no sorting and two tables with the same
bindings are the same table. `set` replaces an earlier entry of the same name: nothing of it stays behind.
-/

namespace CurveScript

/-- entries by name, in the order of the names -/
structure Bindings (α : Type) where
  entries : List (String × α)

namespace Bindings

variable {α β : Type}

/-- no entries -/
def empty : Bindings α := ⟨[]⟩

/-- the entry of a name -/
def get? (b : Bindings α) (name : String) : Option α := b.entries.lookup name

/-- puts an entry in its place in the order, where it replaces one of the same name -/
def insert (name : String) (value : α) : List (String × α) → List (String × α)
  | [] => [(name, value)]
  | (n, v) :: rest =>
    if n = name then (name, value) :: rest
    else if name < n then (name, value) :: (n, v) :: rest
    else (n, v) :: insert name value rest

/-- binds a name, in place of an earlier binding -/
def set (b : Bindings α) (name : String) (value : α) : Bindings α := ⟨insert name value b.entries⟩

/-- removes the binding of a name -/
def erase (b : Bindings α) (name : String) : Bindings α := ⟨b.entries.filter fun e => !(e.1 == name)⟩

/-- whether a name is bound -/
def contains (b : Bindings α) (name : String) : Bool := (b.get? name).isSome

/-- the number of bound names -/
def size (b : Bindings α) : Nat := b.entries.length

/-- whether no name is bound -/
def isEmpty (b : Bindings α) : Bool := b.entries.isEmpty

/-- the table that binding the pairs in turn leaves -/
def ofList (pairs : List (String × α)) : Bindings α := pairs.foldl (fun b p => b.set p.1 p.2) empty

/-- the bound names in order -/
def names (b : Bindings α) : List String := b.entries.map Prod.fst

/-- the bound values in the order of their names -/
def values (b : Bindings α) : List α := b.entries.map Prod.snd

theorem lookup_insert (name other : String) (value : α) (entries : List (String × α)) :
    (insert name value entries).lookup other = if other = name then some value else entries.lookup other := by
  induction entries with
  | nil => grind [insert]
  | cons e rest ih => grind [insert]

/-- A binding is seen under its own name and changes no other. -/
theorem get?_set (b : Bindings α) (name other : String) (value : α) :
    (b.set name value).get? other = if other = name then some value else b.get? other :=
  lookup_insert name other value b.entries

@[simp] theorem get?_empty (name : String) : (empty : Bindings α).get? name = none := rfl

/-! ## The order of the names -/

/-- Where no key comes twice, an entry is found under its key. -/
theorem lookup_of_mem {κ : Type} [BEq κ] [LawfulBEq κ] {entries : List (κ × α)}
    (hdistinct : (entries.map Prod.fst).Nodup) {key : κ} {value : α} (h : (key, value) ∈ entries) :
    entries.lookup key = some value := by
  induction entries with
  | nil => cases h
  | cons e rest ih =>
    obtain ⟨k, v⟩ := e
    obtain ⟨hfresh, hrest⟩ := List.nodup_cons.1 hdistinct
    rw [List.lookup_cons]
    obtain heq | hmem := List.mem_cons.1 h
    · cases heq
      simp
    · have hne : key ≠ k := fun heq => hfresh (List.mem_map.2 ⟨_, hmem, heq⟩)
      rw [beq_eq_false_iff_ne.2 hne]
      exact ih hrest hmem

theorem mem_names {b : Bindings α} {name : String} : name ∈ b.names ↔ (b.get? name).isSome := by
  rw [get?, List.lookup_isSome_iff]
  simp [names]

theorem mem_names_insert {name other : String} {value : α} {entries : List (String × α)} :
    other ∈ (insert name value entries).map Prod.fst ↔ other = name ∨ other ∈ entries.map Prod.fst := by
  induction entries with
  | nil => simp [insert]
  | cons e rest ih => grind [insert]

/-- The names are in order, none of them twice. -/
def Sorted (b : Bindings α) : Prop := b.names.Pairwise (· < ·)

theorem sorted_empty : (empty : Bindings α).Sorted := .nil

theorem sorted_insert (name : String) (value : α) {entries : List (String × α)}
    (h : (entries.map Prod.fst).Pairwise (· < ·)) : ((insert name value entries).map Prod.fst).Pairwise (· < ·) := by
  induction entries with
  | nil => exact List.pairwise_singleton _ _
  | cons e rest ih =>
    obtain ⟨n, v⟩ := e
    obtain ⟨hfirst, hrest⟩ := List.pairwise_cons.1 h
    unfold insert
    split
    · next heq => exact heq ▸ h
    · next hne =>
      split
      · next hlt =>
        refine List.pairwise_cons.2 ⟨fun m hm => ?_, h⟩
        rcases List.mem_cons.1 hm with rfl | hm
        · exact hlt
        · exact String.lt_trans hlt (hfirst m hm)
      · next hnlt =>
        have hafter : n < name := by grind
        refine List.pairwise_cons.2 ⟨fun m hm => ?_, ih hrest⟩
        rcases mem_names_insert.1 hm with rfl | hm
        · exact hafter
        · exact hfirst m hm

/-- **Binding a name** keeps the order. -/
theorem Sorted.set {b : Bindings α} (h : b.Sorted) (name : String) (value : α) : (b.set name value).Sorted :=
  sorted_insert name value h

theorem Sorted.nodup {b : Bindings α} (h : b.Sorted) : b.names.Nodup := by
  refine List.Pairwise.imp ?_ h
  rintro name _ hlt rfl
  exact String.lt_irrefl name hlt

/-- Each name leads to its value. -/
theorem Sorted.map_get?_names {b : Bindings α} (h : b.Sorted) : b.names.map b.get? = b.values.map some := by
  simp only [names, values, List.map_map]
  exact List.map_congr_left fun e he => lookup_of_mem h.nodup he

end Bindings

end CurveScript
