namespace MarkupEditor

structure IdSet where
  ids : List String := []
  nodup : ids.Nodup := by exact List.nodup_nil

namespace IdSet

instance : Inhabited IdSet := ⟨{}⟩

def contains (s : IdSet) (id : String) : Bool := s.ids.contains id

def insert (s : IdSet) (id : String) : IdSet :=
  if h : id ∈ s.ids then s
  else ⟨s.ids ++ [id], by
    refine List.nodup_append.mpr ⟨s.nodup, by simp, ?_⟩
    intro a member b last
    simp only [List.mem_singleton] at last
    subst last
    exact fun same => h (same ▸ member)⟩

def erase (s : IdSet) (id : String) : IdSet := ⟨s.ids.filter (· ≠ id), s.nodup.sublist List.filter_sublist⟩

def eraseAll (s : IdSet) (ids : List String) : IdSet :=
  ⟨s.ids.filter (!ids.contains ·), s.nodup.sublist List.filter_sublist⟩

def insertAll (s : IdSet) (ids : List String) : IdSet := ids.foldl insert s

def isEmpty (s : IdSet) : Bool := s.ids.isEmpty

end IdSet

end MarkupEditor
