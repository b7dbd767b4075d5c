namespace MarkupEditor

-- The ids stand in the order in which they were first written. One that is erased and written again goes to the end.
structure Store (α : Type) where
  entries : List (String × α)
  nodup : (entries.map Prod.fst).Nodup

structure Change (α : Type) where
  id : String
  before : Option α
  after : Option α

namespace Store

variable {α : Type}

def empty : Store α := ⟨[], List.nodup_nil⟩

instance : Inhabited (Store α) := ⟨empty⟩

def ids (s : Store α) : List String := s.entries.map Prod.fst

def size (s : Store α) : Nat := s.entries.length

def get? (s : Store α) (id : String) : Option α := (s.entries.find? (·.1 == id)).map Prod.snd

def contains (s : Store α) (id : String) : Bool := s.entries.any (·.1 == id)

def replaced (id : String) (value : α) (entries : List (String × α)) : List (String × α) :=
  entries.map fun e => if e.1 = id then (e.1, value) else e

theorem replaced_ids (id : String) (value : α) (entries : List (String × α)) :
    (replaced id value entries).map Prod.fst = entries.map Prod.fst := by
  simp only [replaced, List.map_map]
  apply List.map_congr_left
  intro e _
  by_cases h : e.1 = id <;> simp [h]

theorem contains_iff (s : Store α) (id : String) : s.contains id = true ↔ id ∈ s.ids := by
  simp only [contains, ids, List.any_eq_true, beq_iff_eq, List.mem_map]

theorem nodup_append_new {ids : List String} {id : String} (nodup : ids.Nodup) (new : id ∉ ids) :
    (ids ++ [id]).Nodup := by
  refine List.nodup_append.mpr ⟨nodup, by simp, ?_⟩
  intro a member b last
  simp only [List.mem_singleton] at last
  subst last
  exact fun same => new (same ▸ member)

def set (s : Store α) (id : String) (value : α) : Store α :=
  if h : s.contains id then ⟨replaced id value s.entries, by rw [replaced_ids]; exact s.nodup⟩
  else ⟨s.entries ++ [(id, value)], by
    rw [List.map_append]
    exact nodup_append_new s.nodup (fun member => h ((contains_iff s id).mpr member))⟩

def erase (s : Store α) (id : String) : Store α :=
  ⟨s.entries.filter (·.1 ≠ id), s.nodup.sublist (List.filter_sublist.map Prod.fst)⟩

-- Writes a record, or erases the entry when there is none to write.
def put (s : Store α) (id : String) : Option α → Store α
  | some value => s.set id value
  | none => s.erase id

-- The store after a write, and the change it makes. Erasing an absent entry makes none.
def write (s : Store α) (id : String) (value : Option α) : Store α × Option (Change α) :=
  match s.get? id, value with
  | none, none => (s, none)
  | before, after => (s.put id after, some ⟨id, before, after⟩)

end Store

end MarkupEditor
